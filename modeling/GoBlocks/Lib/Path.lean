import Mathlib.Data.List.Basic
import Mathlib.Data.List.Induction

/-!
# Slash-separated byte paths

Go strings are byte strings, and `path.Clean` of the standard library rewrites
a slash-separated one to the shortest equivalent path. The rewriting is stated
here on the list of path elements: a stack receives the elements from left to
right, and the cleaned path is the stack joined again by single slashes. The
results describe cleaning of rooted paths through their lists of proper names.
-/

namespace GoBlocks

/-- A Go string or byte slice. -/
abbrev Bytes := List UInt8

namespace Path

/-- The path separator `'/'`. -/
def slash : UInt8 := 0x2f

/-- The character `'.'`. -/
def dot : UInt8 := 0x2e

/-- The path elements of a string: its maximal slash-free pieces in order,
the empty ones included. -/
def elements (p : Bytes) : List Bytes := p.splitOn slash

/-- Path elements joined by single slashes. -/
def join (es : List Bytes) : Bytes := [slash].intercalate es

/-- One element handed to the stack of `path.Clean`, whose top is the element
written last. Empty elements and `.` are eliminated, an inner `..` goes together
with the element before it, and a `..` that begins a rooted path is dropped. -/
def push (rooted : Bool) (stack : List Bytes) (e : Bytes) : List Bytes :=
  if e = [] ∨ e = [dot] then stack
  else if e = [dot, dot] then
    match stack with
    | [] => if rooted then [] else [e]
    | top :: rest => if top = [dot, dot] then e :: top :: rest else rest
  else e :: stack

/-- `path.Clean`. The result ends in a slash only if it is the root, and an
empty result is written as `.`. -/
def clean (p : Bytes) : Bytes :=
  let rooted := p.head? == some slash
  let out := join (((elements p).foldl (push rooted) []).reverse)
  if rooted then slash :: out else if out = [] then [dot] else out

/-- A proper path name: a nonempty slash-free string other than `.` and `..`. -/
def IsName (e : Bytes) : Prop := e ≠ [] ∧ e ≠ [dot] ∧ e ≠ [dot, dot] ∧ slash ∉ e

/-- It can be decided whether an element is a name. -/
instance (e : Bytes) : Decidable (IsName e) := inferInstanceAs (Decidable (_ ∧ _))

/-- The names left on the stack after a rooted path with these elements. -/
def resolve (es : List Bytes) : List Bytes := (es.foldl (push true) []).reverse

/-- The names of the rooted path `"/" + s`. -/
def names (s : Bytes) : List Bytes := resolve (elements s)

/-! ## Elements and joining -/

/-- Splitting at slashes and joining again restores the string. -/
@[simp] theorem join_elements (p : Bytes) : join (elements p) = p :=
  List.intercalate_splitOn slash

/-- No path element contains a slash. -/
theorem slash_notMem_of_mem_elements {p e : Bytes} (he : e ∈ elements p) : slash ∉ e := by
  induction p generalizing e with
  | nil =>
    have : e = [] := by simpa [elements] using he
    simp [this]
  | cons b p ih =>
    unfold elements at he ih
    rw [List.splitOn_cons_eq_if_modifyHead] at he
    split at he
    · rcases List.mem_cons.mp he with rfl | he
      · exact List.not_mem_nil
      · exact ih he
    · rename_i hb
      cases hsplit : p.splitOn slash with
      | nil => exact absurd hsplit (List.splitOn_ne_nil _ _)
      | cons first rest =>
        rw [hsplit] at he ih
        rcases List.mem_cons.mp he with rfl | he
        · have hfirst := ih (List.mem_cons_self ..)
          simp only [List.mem_cons, not_or]
          exact ⟨fun h => hb (by simp [← h]), hfirst⟩
        · exact ih (List.mem_cons_of_mem _ he)

/-- A nonempty list of slash-free elements is recovered from its join. -/
theorem elements_join {es : List Bytes} (hne : es ≠ []) (hes : ∀ e ∈ es, slash ∉ e) :
    elements (join es) = es :=
  List.splitOn_intercalate slash hes hne

/-- The first element of a longer list is joined to the others by a slash. -/
theorem join_cons (e : Bytes) {es : List Bytes} (hne : es ≠ []) :
    join (e :: es) = e ++ slash :: join es := by
  rw [join, List.intercalate_cons_of_ne_nil hne, List.append_assoc]
  rfl

/-- The elements around a slash are those of the two sides. -/
theorem elements_append_slash (a b : Bytes) :
    elements (a ++ slash :: b) = elements a ++ elements b :=
  List.splitOn_append_cons_self a b

/-- A leading slash contributes one empty element. -/
@[simp] theorem elements_slash_cons (s : Bytes) :
    elements (slash :: s) = [] :: elements s := by
  simpa [elements] using elements_append_slash [] s

/-! ## The stack -/

/-- Empty elements do not change the stack. -/
@[simp] theorem push_nil (rooted : Bool) (stack : List Bytes) : push rooted stack [] = stack := by
  simp [push]

/-- A proper name is pushed. -/
theorem push_name {e : Bytes} (he : IsName e) (rooted : Bool) (stack : List Bytes) :
    push rooted stack e = e :: stack := by
  simp [push, he.1, he.2.1, he.2.2.1]

/-- In a rooted path a slash-free element leaves only proper names on a stack
of proper names. -/
theorem push_isName {stack : List Bytes} {e : Bytes} (hstack : ∀ n ∈ stack, IsName n)
    (he : slash ∉ e) : ∀ n ∈ push true stack e, IsName n := by
  unfold push
  split
  · exact hstack
  · rename_i hempty
    split
    · cases stack with
      | nil => simp
      | cons top rest =>
        have htop := hstack top (List.mem_cons_self ..)
        simp only [if_neg htop.2.2.1]
        exact fun n hn => hstack n (List.mem_cons_of_mem _ hn)
    · rename_i hdots
      intro n hn
      rcases List.mem_cons.mp hn with rfl | hn
      · exact ⟨fun h => hempty (Or.inl h), fun h => hempty (Or.inr h), hdots, he⟩
      · exact hstack n hn

/-- Proper names are pushed one after the other. -/
theorem foldl_push_names {es : List Bytes} (hes : ∀ e ∈ es, IsName e) (stack : List Bytes) :
    es.foldl (push true) stack = es.reverse ++ stack := by
  induction es generalizing stack with
  | nil => rfl
  | cons e es ih =>
    rw [List.foldl_cons, push_name (hes e (List.mem_cons_self ..)),
      ih fun n hn => hes n (List.mem_cons_of_mem _ hn)]
    simp

/-- Resolving a rooted path leaves only proper names. -/
theorem isName_of_mem_resolve {es : List Bytes} (hes : ∀ e ∈ es, slash ∉ e) :
    ∀ n ∈ resolve es, IsName n := by
  have hfold : ∀ stack : List Bytes, (∀ n ∈ stack, IsName n) →
      ∀ n ∈ es.foldl (push true) stack, IsName n := by
    induction es with
    | nil => exact fun stack hstack => hstack
    | cons e es ih =>
      intro stack hstack
      exact ih (fun e' he' => hes e' (List.mem_cons_of_mem _ he')) _
        (push_isName hstack (hes e (List.mem_cons_self ..)))
  intro n hn
  exact hfold [] (by simp) n (List.mem_reverse.mp hn)

/-- Every name of a rooted path is proper. -/
theorem isName_of_mem_names {s n : Bytes} (hn : n ∈ names s) : IsName n :=
  isName_of_mem_resolve (fun _ he => slash_notMem_of_mem_elements he) n hn

/-- The elements of a joined list of proper names push exactly these names,
also when the list is empty and its join has one empty element. -/
theorem foldl_push_elements_join {ns : List Bytes} (hns : ∀ n ∈ ns, IsName n)
    (stack : List Bytes) :
    (elements (join ns)).foldl (push true) stack = ns.reverse ++ stack := by
  by_cases hnil : ns = []
  · subst hnil
    simp [join, elements]
  · rw [elements_join hnil fun e he => (hns e he).2.2.2, foldl_push_names hns]

/-- A list of proper names is already resolved. -/
theorem resolve_names {es : List Bytes} (hes : ∀ e ∈ es, IsName e) : resolve es = es := by
  simp [resolve, foldl_push_names hes]

/-! ## Cleaning rooted paths -/

/-- Cleaning a rooted path joins its names. -/
theorem clean_slash_cons (s : Bytes) : clean (slash :: s) = slash :: join (names s) := by
  simp [clean, names, resolve]

/-- The names of a joined list of proper names are that list. -/
theorem names_join {ns : List Bytes} (hns : ∀ n ∈ ns, IsName n) : names (join ns) = ns := by
  simp [names, resolve, foldl_push_elements_join hns]

/-- A leading slash does not change the names. -/
@[simp] theorem names_slash_cons (s : Bytes) : names (slash :: s) = names s := by
  simp [names, resolve]

/-- A proper name behind a cleaned path is one name more. -/
theorem names_join_append {ns : List Bytes} (hns : ∀ n ∈ ns, IsName n) {s : Bytes}
    (hs : IsName s) : names (join ns ++ slash :: s) = ns ++ [s] := by
  have helems : elements s = [s] := by
    simpa [join] using elements_join (List.cons_ne_nil s []) (by simpa using hs.2.2.2)
  rw [names, resolve, elements_append_slash, List.foldl_append, foldl_push_elements_join hns,
    helems, List.foldl_cons, List.foldl_nil, push_name hs]
  simp

/-- A trailing slash does not change the names of a cleaned path. -/
theorem names_join_append_nil {ns : List Bytes} (hns : ∀ n ∈ ns, IsName n) :
    names (join ns ++ [slash]) = ns := by
  rw [names, resolve, elements_append_slash, List.foldl_append, foldl_push_elements_join hns]
  simp [elements]

/-- Joining two cleaned paths by a slash concatenates their names. -/
theorem names_child {ns ms : List Bytes} (hns : ∀ n ∈ ns, IsName n) (hms : ∀ m ∈ ms, IsName m) :
    names (join ns ++ slash :: slash :: join ms) = ns ++ ms := by
  rw [names, resolve, elements_append_slash, elements_slash_cons, List.foldl_append,
    foldl_push_elements_join hns, List.foldl_cons, push_nil, foldl_push_elements_join hms]
  simp

end Path

end GoBlocks
