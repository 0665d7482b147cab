import GoBlocks.Lib.Path

/-!
# Datastore keys

A datastore key is a cleaned rooted path. The constructor `NewKey` cleans its
argument, and every other operation goes through it, so the structure carries
the cleanness of its string. The list of names of a key determines it, and
taking a child concatenates the two lists.
-/

namespace GoBlocks.Ds

open GoBlocks.Path

/-- `ds.Key`: a string that `Key.Clean` leaves unchanged. -/
@[ext] structure Key where
  /-- The text of the key. -/
  string : Bytes
  /-- The key was cleaned when it was built. -/
  cleaned : clean (slash :: string) = string
  deriving DecidableEq

/-- `NewKey` constructs a key from a string; it cleans the value. -/
def newKey (s : Bytes) : Key where
  string := clean (slash :: s)
  cleaned := by
    rw [clean_slash_cons s, clean_slash_cons, names_slash_cons,
      names_join fun _ => isName_of_mem_names]

/-- `Key.Child`: the key below `k` that `k2` names. -/
def Key.child (k k2 : Key) : Key := newKey (k.string ++ slash :: k2.string)

/-- `Key.ChildString`: the key below `k` that a string names. -/
def Key.childString (k : Key) (s : Bytes) : Key := newKey (k.string ++ slash :: s)

/-- `Key.List`: the pieces of the text between and after its slashes. -/
def Key.list (k : Key) : List Bytes := (elements k.string).tail

/-- `Key.Namespaces`. -/
def Key.namespaces (k : Key) : List Bytes := k.list

/-- `Key.IsAncestorOf`: whether `k` is a proper string prefix of `other`. -/
def Key.isAncestorOf (k other : Key) : Bool :=
  if other.string = k.string then false else k.string.isPrefixOf other.string

/-- The names of a key, in order. -/
def Key.names (k : Key) : List Bytes := Path.names k.string

/-- Every name of a key is proper. -/
theorem Key.isName_of_mem_names {k : Key} {n : Bytes} (hn : n ∈ k.names) : IsName n :=
  Path.isName_of_mem_names hn

/-- The text of a key is the join of its names behind a slash. -/
theorem Key.string_eq (k : Key) : k.string = slash :: join k.names := by
  conv_lhs => rw [← k.cleaned, clean_slash_cons]
  rfl

/-- The names of a new key are those of the rooted path. -/
@[simp] theorem newKey_names (s : Bytes) : (newKey s).names = Path.names s := by
  simp [Key.names, newKey, clean_slash_cons, names_join fun _ => Path.isName_of_mem_names]

/-- Keys with the same names are equal. -/
theorem Key.ext_names {k k' : Key} (h : k.names = k'.names) : k = k' := by
  apply Key.ext
  rw [k.string_eq, k'.string_eq, h]

/-- Cleaning the text of a key again restores the key. -/
@[simp] theorem newKey_string (k : Key) : newKey k.string = k := Key.ext k.cleaned

/-- The names of a child are the names of both keys, one after the other. -/
@[simp] theorem Key.child_names (k k2 : Key) : (k.child k2).names = k.names ++ k2.names := by
  rw [Key.child, newKey_names, k.string_eq, k2.string_eq, List.cons_append, names_slash_cons,
    names_child (fun _ => isName_of_mem_names) fun _ => isName_of_mem_names]

/-- The namespaces of a key are its names, and the root has an empty one. -/
theorem Key.namespaces_eq (k : Key) :
    k.namespaces = if k.names = [] then [[]] else k.names := by
  rw [Key.namespaces, Key.list, k.string_eq, elements_slash_cons, List.tail_cons]
  split
  next hnil =>
    rw [hnil]
    rfl
  next hne => exact elements_join hne fun e he => (isName_of_mem_names he).2.2.2

/-- A child by a proper name has one name more. -/
theorem Key.childString_names (k : Key) {s : Bytes} (hs : IsName s) :
    (k.childString s).names = k.names ++ [s] := by
  rw [Key.childString, newKey_names, k.string_eq, List.cons_append, names_slash_cons,
    names_join_append (fun _ => isName_of_mem_names) hs]

/-- A child by the empty string is the key itself. -/
theorem Key.childString_nil (k : Key) : k.childString [] = k := by
  apply Key.ext_names
  rw [Key.childString, newKey_names, k.string_eq, List.cons_append, names_slash_cons,
    names_join_append_nil fun _ => isName_of_mem_names]

/-- Taking the child of a fixed key is injective. -/
theorem Key.child_injective (k : Key) : Function.Injective k.child := by
  intro a b h
  have hnames := congrArg Key.names h
  simp only [child_names, List.append_cancel_left_eq] at hnames
  exact Key.ext_names hnames

/-- A rooted list of proper names is the text of a key with these names. -/
theorem newKey_join_names {ns : List Bytes} (hns : ∀ n ∈ ns, IsName n) :
    (newKey (join ns)).names = ns := by
  rw [newKey_names, names_join hns]

end GoBlocks.Ds
