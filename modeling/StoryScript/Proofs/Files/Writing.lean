import StoryScript.Files.FileSystem
/-!
# Writing and reading back

A write needs a directory that is there and a last name that is free or names a file (`Writable`). The
file it leaves is no directory and stands where no directory stood, so every path that led somewhere
still leads there, and the path that was written to leads to the file (`read_put`).
-/

namespace StoryScript.Files.FileSystem

variable {fs : FileSystem} {place : Place} {content : ByteArray}

@[simp] theorem node_put_self (node : Node) : (fs.put place node).node place = some node :=
  if_pos rfl

theorem node_put_of_ne {p : Place} (h : p ≠ place) (node : Node) :
    (fs.put place node).node p = fs.node p :=
  if_neg h

theorem isSome_node_put {p : Place} (h : (fs.node p).isSome) (node : Node) :
    ((fs.put place node).node p).isSome := by
  by_cases hp : p = place
  · rw [hp, node_put_self]
    rfl
  · rwa [node_put_of_ne hp]

/-- A file is put where no directory stands, so no directory comes or goes. -/
theorem isDirectory_put (h : fs.isDirectory place = false) (p : Place) :
    (fs.put place (.file content)).isDirectory p = fs.isDirectory p := by
  by_cases hp : p = place
  · rw [hp, h, isDirectory, node_put_self]
  · rw [isDirectory, isDirectory, node_put_of_ne hp]

/-! ## Following names -/

/-- Look one name up in a place. -/
def enter (fs : FileSystem) (p : Place) (name : String) : Except Failure Place :=
  if fs.isDirectory p then
    if name = "" ∨ name = "." then .ok p
    else if name = ".." then .ok p.dropLast
    else if (fs.node (p ++ [name])).isSome then .ok (p ++ [name])
    else .error .notFound
  else .error .notADirectory

theorem follow_cons (p : Place) (name : String) (names : List String) :
    fs.follow p (name :: names) = fs.enter p name >>= fun q => fs.follow q names := by
  rw [follow, enter]
  repeat' split
  all_goals rfl

theorem follow_append {p q : Place} {names : List String} (h : fs.follow p names = .ok q)
    (more : List String) : fs.follow p (names ++ more) = fs.follow q more := by
  induction names generalizing p with
  | nil =>
    cases h
    rfl
  | cons name names ih =>
    rw [follow_cons] at h
    rw [List.cons_append, follow_cons]
    cases hname : fs.enter p name with
    | error failure =>
      rw [hname] at h
      cases h
    | ok r =>
      rw [hname] at h
      exact ih h

theorem enter_put (h : fs.isDirectory place = false) {p q : Place} {name : String}
    (hname : fs.enter p name = .ok q) : (fs.put place (.file content)).enter p name = .ok q := by
  rw [enter] at hname
  rw [enter, isDirectory_put h]
  split at hname
  · next hdirectory =>
    rw [if_pos hdirectory]
    split at hname
    · next hstay => rwa [if_pos hstay]
    · next hstay =>
      rw [if_neg hstay]
      split at hname
      · next hup => rwa [if_pos hup]
      · next hup =>
        rw [if_neg hup]
        split at hname
        · next hnode => rwa [if_pos (isSome_node_put hnode _)]
        · cases hname
  · cases hname

theorem follow_put (h : fs.isDirectory place = false) {p q : Place} {names : List String}
    (hnames : fs.follow p names = .ok q) :
    (fs.put place (.file content)).follow p names = .ok q := by
  induction names generalizing p with
  | nil => exact hnames
  | cons name names ih =>
    rw [follow_cons] at hnames
    rw [follow_cons]
    cases hname : fs.enter p name with
    | error failure =>
      rw [hname] at hnames
      cases hnames
    | ok r =>
      rw [hname] at hnames
      rw [enter_put h hname]
      exact ih hnames

/-! ## The place that is written to -/

/-- A path that leads to a name in a directory, where something that is no directory can stand. -/
structure Writable (fs : FileSystem) (path : String) (directory : Place) (name : String) : Prop where
  path_ne : path ≠ ""
  leads : ∃ before, names path = before ++ [name] ∧
    fs.follow (fs.origin path) before = .ok directory
  isDirectory : fs.isDirectory directory = true
  named : name ≠ "" ∧ name ≠ "." ∧ name ≠ ".."
  free : fs.isDirectory (directory ++ [name]) = false

theorem dropWhile_reverse_concat {before : List String} {name : String} (h : name ≠ "") :
    (before ++ [name]).reverse.dropWhile (· = "") = name :: before.reverse := by
  rw [List.reverse_append, List.reverse_singleton, List.singleton_append,
    List.dropWhile_cons_of_neg (by simpa using h)]

/-- A path without a slash at its end is written to under its last name. -/
theorem eq_concat_of_head? {all : List String} {name : String} (hlast : all.getLast? ≠ some "")
    (hname : (all.reverse.dropWhile (· = "")).head? = some name) :
    name ≠ "" ∧ all = ((all.reverse.dropWhile (· = "")).drop 1).reverse ++ [name] := by
  rcases all.eq_nil_or_concat with rfl | ⟨before, last, rfl⟩
  · cases hname
  · rw [List.concat_eq_append] at hlast hname ⊢
    have hne : last ≠ "" := fun h => hlast (by rw [List.getLast?_concat, h])
    rw [dropWhile_reverse_concat hne] at hname ⊢
    obtain rfl : last = name := Option.some.inj hname
    rw [List.drop_one, List.tail_cons, List.reverse_reverse]
    exact ⟨hne, rfl⟩

theorem writable_of_target {path : String} (h : fs.target path = .ok place) :
    ∃ directory name, place = directory ++ [name] ∧ fs.Writable path directory name := by
  rw [target] at h
  split at h
  · cases h
  · next hpath =>
    dsimp only at h
    cases hdirectory : fs.follow (fs.origin path)
        (((names path).reverse.dropWhile (· = "")).drop 1).reverse with
    | error failure =>
      rw [hdirectory] at h
      cases h
    | ok directory =>
      rw [hdirectory] at h
      simp only [bind, Except.bind] at h
      split at h
      · next hdir =>
        split at h
        · cases h
        · next name hname =>
          split at h
          · cases h
          · next hfree =>
            simp only [not_or] at hfree
            obtain ⟨hdot, hdots, hlast, hplace⟩ := hfree
            obtain ⟨hne, hall⟩ := eq_concat_of_head? hlast hname
            cases h
            exact ⟨directory, name, rfl, hpath, ⟨_, hall, hdirectory⟩, hdir, ⟨hne, hdot, hdots⟩,
              Bool.eq_false_iff.2 hplace⟩
      · cases h

theorem Writable.target_eq {path name : String} {directory : Place}
    (h : fs.Writable path directory name) : fs.target path = .ok (directory ++ [name]) := by
  obtain ⟨before, hnames, hfollow⟩ := h.leads
  obtain ⟨hne, hdot, hdots⟩ := h.named
  rw [target, if_neg h.path_ne, hnames]
  dsimp only
  rw [dropWhile_reverse_concat hne, List.drop_one, List.tail_cons, List.reverse_reverse, hfollow]
  simp only [bind, Except.bind, h.isDirectory, if_true, List.head?_cons, List.getLast?_concat, hdot,
    hdots, h.free, Option.some.injEq, hne, or_self, Bool.false_eq_true, if_false]

theorem find_of_follow {path : String} {node : Node} (hpath : path ≠ "")
    (h : fs.follow (fs.origin path) (names path) = .ok place) (hnode : fs.node place = some node) :
    fs.find path = .ok node := by
  rw [find, if_neg hpath, h]
  simp only [bind, Except.bind, hnode]

/-- A file that was written is read back under the path it was written to. -/
theorem read_put {path : String} (h : fs.target path = .ok place) :
    (fs.put place (.file content)).read path = .ok content := by
  obtain ⟨directory, name, rfl, hw⟩ := writable_of_target h
  obtain ⟨before, hnames, hfollow⟩ := hw.leads
  obtain ⟨hne, hdot, hdots⟩ := hw.named
  have hname : (fs.put (directory ++ [name]) (.file content)).enter directory name =
      .ok (directory ++ [name]) := by
    rw [enter, isDirectory_put hw.free, hw.isDirectory, if_pos rfl, if_neg (by simp [hne, hdot]),
      if_neg hdots, node_put_self]
    rfl
  have hall : (fs.put (directory ++ [name]) (.file content)).follow (fs.origin path) (names path) =
      .ok (directory ++ [name]) := by
    rw [hnames, follow_append (follow_put hw.free hfollow), follow_cons, hname]
    rfl
  have hfind : (fs.put (directory ++ [name]) (.file content)).find path = .ok (.file content) :=
    find_of_follow hw.path_ne hall (node_put_self _)
  rw [read, hfind]
  rfl

end StoryScript.Files.FileSystem
