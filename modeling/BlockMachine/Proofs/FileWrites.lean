import BlockMachine.Files.Storage
import BlockMachine.Proofs.Results

/-! # Files after a write

A write changes the node at one location, which was no directory before.  So every way through
directories that was there is still there, and the path that was written leads to the file.

* `FileStore.write_inv`, `FileStore.target_inv` — what a write does, and where;
* `FileStore.KeepsDirectories` — a store that has the directories of another one; walks go the same
  way in it (`KeepsDirectories.walk`);
* `FileStore.find_of_write`, `FileStore.read_of_write` — the path leads to what was written;
* `FileStore.save_inv` — saving a program is a write.
-/

namespace BlockMachine.FileStore

variable {s s' : FileStore} {path : String} {l : Location} {bytes : Bytes}

/-! ## Walks through directories -/

theorem directory_of_descend {name : String} {l' : Location} (h : s.descend l name = .ok l') :
    s.node? l = some .directory := by
  rw [descend] at h
  cases hnode : s.node? l with
  | none => rw [hnode] at h; cases h
  | some node =>
    cases node with
    | file _ => rw [hnode] at h; cases h
    | directory => rfl

/-- A plain name leads below the directory that it stands in. -/
theorem descend_inv {name : String} {l' : Location} (h : s.descend l name = .ok l')
    (hname : name ≠ "") (hdot : name ≠ ".") (hdots : name ≠ "..") : l' = l ++ [name] := by
  rw [descend, directory_of_descend h] at h
  simp only [hname, hdot, hdots, or_self, if_false] at h
  split at h
  · cases h
  · cases h
    rfl

def KeepsDirectories (s s' : FileStore) : Prop :=
  ∀ l, s.node? l = some .directory → s'.node? l = some .directory

theorem KeepsDirectories.descend (h : KeepsDirectories s s') {name : String} {l' : Location}
    (hstep : s.descend l name = .ok l') : s'.descend l name = .ok l' := by
  have hdirectory := directory_of_descend hstep
  rw [FileStore.descend, hdirectory] at hstep
  rw [FileStore.descend, h l hdirectory]
  exact hstep

theorem KeepsDirectories.walk (h : KeepsDirectories s s') {names : List String} {l' : Location}
    (hwalk : names.foldlM s.descend l = .ok l') : names.foldlM s'.descend l = .ok l' := by
  induction names generalizing l with
  | nil => exact hwalk
  | cons name names ih =>
    rw [List.foldlM_cons] at hwalk
    obtain ⟨mid, hstep, hwalk⟩ := bind_eq_ok hwalk
    rw [List.foldlM_cons, h.descend hstep]
    exact ih hwalk

/-! ## Where a path leads -/

/-- A path leads to the end of its walk. -/
theorem find_of_walk {start : Location} {node : Node} (horigin : s.origin path = .ok start)
    (hwalk : (Path.names path).foldlM s.descend start = .ok l) (hnode : s.node? l = some node) :
    s.find path = .ok (l, node) := by
  simp only [find, horigin, hwalk, hnode, bind, Except.bind]
  rfl

/-- A file is written under a plain name, the last one of its path, in a directory. -/
theorem target_inv (h : s.target path = .ok l) :
    ∃ start front name directory, s.origin path = .ok start ∧
      Path.names path = front ++ [name] ∧ front.foldlM s.descend start = .ok directory ∧
      s.descend directory name = .ok l ∧ l = directory ++ [name] := by
  rw [target] at h
  obtain ⟨start, horigin, h⟩ := bind_eq_ok h
  obtain ⟨directory, hfront, h⟩ := bind_eq_ok h
  generalize hreverse : (Path.names path).reverse = names at hfront h
  generalize hslashes : names.takeWhile (· == "") = slashes at hfront h
  cases hrest : names.drop slashes.length with
  | nil =>
    rw [hrest] at h
    cases h
  | cons name front =>
    rw [hrest] at h
    obtain ⟨here, hhere, hstep⟩ := bind_eq_ok h
    by_cases hends : slashes ≠ [] ∨ name = "." ∨ name = ".."
    · rw [if_pos hends] at hstep
      cases hstep
    · rw [if_neg hends] at hstep
      simp only [not_or, ne_eq, not_not] at hends
      obtain ⟨rfl, hdot, hdots⟩ := hends
      obtain rfl : here = directory := by
        rw [descend, directory_of_descend hhere] at hhere
        simpa using hhere.symm
      -- Without slashes at the end, the last name is not empty.
      obtain rfl : names = name :: front := by simpa using hrest
      have hname : name ≠ "" := by
        rintro rfl
        simp at hslashes
      refine ⟨start, front.reverse, name, here, horigin, ?_, hfront, hstep, ?_⟩
      · rw [← List.reverse_reverse (Path.names path), hreverse, List.reverse_cons]
      · exact descend_inv hstep hname hdot hdots

theorem walk_of_target (h : s.target path = .ok l) :
    ∃ start, s.origin path = .ok start ∧ (Path.names path).foldlM s.descend start = .ok l := by
  obtain ⟨start, front, name, directory, horigin, hnames, hfront, hname, -⟩ := target_inv h
  refine ⟨start, horigin, ?_⟩
  rw [hnames, List.foldlM_append, hfront]
  show [name].foldlM s.descend directory = .ok l
  rw [List.foldlM_cons, hname]
  rfl

theorem origin_eq_of_home (h : s'.home = s.home) (path : String) :
    s'.origin path = s.origin path := by
  rw [origin, origin, h]

/-! ## Writes -/

/-- Nothing but the node at one location has changed, which was no directory and is a file now. -/
structure Wrote (s s' : FileStore) (l : Location) (bytes : Bytes) : Prop where
  home : s'.home = s.home
  not_directory : s.node? l ≠ some .directory
  node? : ∀ other, s'.node? other = if l = other then some (.file bytes) else s.node? other

theorem write_inv (h : s.write path bytes = .ok s') :
    ∃ l, s.target path = .ok l ∧ s.Wrote s' l bytes := by
  rw [write] at h
  obtain ⟨l, htarget, h⟩ := bind_eq_ok h
  refine ⟨l, htarget, ?_⟩
  have hwritten : s.node? l ≠ some .directory ∧
      { s with nodes := s.nodes.insert l (.file bytes) } = s' := by
    cases hnode : s.node? l with
    | none =>
      rw [hnode] at h
      exact ⟨nofun, Except.ok.inj h⟩
    | some node =>
      rw [hnode] at h
      cases node with
      | file _ => exact ⟨nofun, Except.ok.inj h⟩
      | directory => cases h
  obtain ⟨hnode, rfl⟩ := hwritten
  refine ⟨rfl, hnode, ?_⟩
  intro other
  obtain ⟨_, _, _, _, _, _, _, _, rfl⟩ := target_inv htarget
  simp only [node?]
  rw [Dictionary.get?_insert]
  by_cases hroot : other = []
  · simp [hroot]
  · rw [if_neg hroot, if_neg hroot]

theorem Wrote.keepsDirectories (h : s.Wrote s' l bytes) : KeepsDirectories s s' := by
  intro other hother
  rw [h.node?, if_neg]
  · exact hother
  · rintro rfl
    exact h.not_directory hother

/-- The path that was written leads to the file. -/
theorem find_of_write (h : s.write path bytes = .ok s') :
    ∃ l, s.target path = .ok l ∧ s.Wrote s' l bytes ∧ s'.find path = .ok (l, .file bytes) := by
  obtain ⟨l, htarget, hwrote⟩ := write_inv h
  obtain ⟨start, horigin, hwalk⟩ := walk_of_target htarget
  have hfile : s'.node? l = some (.file bytes) := by rw [hwrote.node?, if_pos rfl]
  rw [← origin_eq_of_home hwrote.home] at horigin
  exact ⟨l, htarget, hwrote, find_of_walk horigin (hwrote.keepsDirectories.walk hwalk) hfile⟩

/-- Reading gives back what was written. -/
theorem read_of_write (h : s.write path bytes = .ok s') : s'.read path = .ok bytes := by
  obtain ⟨l, -, -, hfind⟩ := find_of_write h
  rw [read, hfind]
  rfl

/-- What is saved of a program is its image. -/
theorem save_inv {p : Program} (h : s.save p path = .ok s') :
    ∃ image, Image.encode p = .ok image ∧ s.write path image = .ok s' := by
  rw [save] at h
  obtain ⟨image, hencode, h⟩ := bind_eq_ok h
  exact ⟨image, hencode, mapError_eq_ok h⟩

end BlockMachine.FileStore
