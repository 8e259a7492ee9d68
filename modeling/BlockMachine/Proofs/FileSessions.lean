import BlockMachine.Execution
import BlockMachine.Proofs.BoundedDelivery
import BlockMachine.Proofs.SavedPrograms
import BlockMachine.Proofs.Serving
import Mathlib.Data.String.Basic

/-! # Sessions with files

A store is used by one action after the other: programs are saved, loaded and executed, and files
and directories are made by others.  A saved program stays where it is until something else is
written to the same location.

* `FileStore.location` — where the names of a path lead; a file is written there or not at all
  (`target_eq_location`), and plain paths that differ lead to different locations
  (`location_ne_of_plain`);
* `FileStore.Keeps` — a store in which the node at a location, and the way to it, are as they were;
* `FileAction`, `FileStore.act`, `FileStore.after` — actions, their answers, and the store behind
  them;
* `FileAction.WritesOnly` — an action that writes to allowed paths only, if at all;
* `FileStore.Spared` — actions that leave a location alone, `FileStore.OnOtherNames` — actions on
  other plain paths, which leave it alone (`spared_of_onOtherNames`);
* `saves_in_sessions` — what saving a program does, and that it can be loaded from then on.
-/

namespace BlockMachine

/-! ## Locations -/

namespace Path

/-- Where a name leads from a directory. -/
def enter (l : Location) (name : String) : Location :=
  if name = "" ∨ name = "." then l
  else if name = ".." then l.dropLast
  else l ++ [name]

/-- A path that starts at the working directory and goes down by every name. -/
def IsPlain (path : String) : Prop :=
  ∀ name ∈ names path, name ≠ "" ∧ name ≠ "." ∧ name ≠ ".."

instance (path : String) : Decidable (IsPlain path) :=
  inferInstanceAs (Decidable (∀ name ∈ names path, name ≠ "" ∧ name ≠ "." ∧ name ≠ ".."))

theorem names_eq (path : String) : names path = (path.toList.splitOn '/').map String.ofList := by
  rw [names, String.splitToList_of_valid]
  rfl

theorem names_injective : Function.Injective names := by
  intro path other h
  rw [names_eq, names_eq] at h
  have hinj : Function.Injective String.ofList := fun _ _ => String.ofList_injective
  have hsplit := congrArg (['/'].intercalate ·) (hinj.list_map h)
  simp only [List.intercalate_splitOn] at hsplit
  exact String.toList_inj.1 hsplit

theorem IsPlain.not_isAbsolute {path : String} (h : IsPlain path) : isAbsolute path = false := by
  by_contra habsolute
  have hhead : path.toList.head? = some '/' := by simpa [isAbsolute] using habsolute
  obtain ⟨rest, hrest⟩ := List.head?_eq_some_iff.1 hhead
  -- In front of the first slash there is an empty name.
  have hempty : "" ∈ names path := by
    rw [names_eq, hrest, List.splitOn_cons_eq_if_modifyHead]
    simp
  exact (h "" hempty).1 rfl

theorem foldl_enter_of_plain {names : List String}
    (h : ∀ name ∈ names, name ≠ "" ∧ name ≠ "." ∧ name ≠ "..") (l : Location) :
    names.foldl enter l = l ++ names := by
  induction names generalizing l with
  | nil => simp
  | cons name names ih =>
    rw [List.forall_mem_cons] at h
    obtain ⟨⟨hname, hdot, hdots⟩, hnames⟩ := h
    have henter : enter l name = l ++ [name] := by simp [enter, hname, hdot, hdots]
    rw [List.foldl_cons, henter, ih hnames, List.append_assoc, List.singleton_append]

end Path

namespace FileStore

variable {s s' : FileStore} {path : String} {l l' : Location} {bytes : Bytes} {node : Node}

/-- Where the names of a path lead, if there are directories all the way. -/
def location (s : FileStore) (path : String) : Location :=
  (Path.names path).foldl Path.enter (if Path.isAbsolute path then [] else s.home)

theorem location_eq_of_home (h : s'.home = s.home) (path : String) :
    s'.location path = s.location path := by
  rw [location, location, h]

theorem location_of_plain (h : Path.IsPlain path) :
    s.location path = s.home ++ Path.names path := by
  rw [location, h.not_isAbsolute]
  exact Path.foldl_enter_of_plain h s.home

theorem location_ne_of_plain {other : String} (hpath : Path.IsPlain path)
    (hother : Path.IsPlain other) (hne : other ≠ path) : s.location other ≠ s.location path := by
  rw [location_of_plain hpath, location_of_plain hother]
  intro h
  exact hne (Path.names_injective (List.append_cancel_left h))

theorem descend_eq_enter {name : String} (h : s.descend l name = .ok l') :
    l' = Path.enter l name := by
  rw [descend, directory_of_descend h] at h
  dsimp only at h
  rw [Path.enter]
  split at h
  · next hhere =>
    rw [if_pos hhere]
    exact (Except.ok.inj h).symm
  · next hhere =>
    rw [if_neg hhere]
    split at h
    · next hup =>
      rw [if_pos hup]
      exact (Except.ok.inj h).symm
    · next hup =>
      rw [if_neg hup]
      split at h
      · cases h
      · exact (Except.ok.inj h).symm

theorem walk_eq_enter {names : List String} (h : names.foldlM s.descend l = .ok l') :
    l' = names.foldl Path.enter l := by
  induction names generalizing l with
  | nil => exact (Except.ok.inj h).symm
  | cons name names ih =>
    rw [List.foldlM_cons] at h
    obtain ⟨mid, hstep, h⟩ := bind_eq_ok h
    rw [List.foldl_cons, ← descend_eq_enter hstep]
    exact ih h

theorem origin_eq {start : Location} (h : s.origin path = .ok start) :
    start = if Path.isAbsolute path then [] else s.home := by
  rw [origin] at h
  split at h
  · cases h
  · split at h
    · cases h
    · split at h
      · cases h
      · exact (Except.ok.inj h).symm

theorem target_eq_location (h : s.target path = .ok l) : l = s.location path := by
  obtain ⟨start, horigin, hwalk⟩ := walk_of_target h
  rw [location, ← origin_eq horigin]
  exact walk_eq_enter hwalk

/-! ## What a store keeps -/

structure Keeps (s s' : FileStore) (l : Location) : Prop where
  home : s'.home = s.home
  directories : s.KeepsDirectories s'
  node : ∀ {node}, s.node? l = some node → s'.node? l = some node

theorem Keeps.refl (s : FileStore) (l : Location) : s.Keeps s l :=
  ⟨rfl, fun _ => id, id⟩

theorem Keeps.trans {s'' : FileStore} (h : s.Keeps s' l) (h' : s'.Keeps s'' l) :
    s.Keeps s'' l where
  home := h'.home.trans h.home
  directories := fun other hother => h'.directories other (h.directories other hother)
  node := fun hnode => h'.node (h.node hnode)

theorem Wrote.keeps (h : s.Wrote s' l' bytes) (hne : l' ≠ l) : s.Keeps s' l where
  home := h.home
  directories := h.keepsDirectories
  node := by
    intro node hnode
    rw [h.node?, if_neg hne]
    exact hnode

/-- New directories stand only where there was nothing. -/
theorem node?_makeDirectory (h : s.node? l = some node) (l' : Location) :
    (s.makeDirectory l').node? l = some node := by
  by_cases hroot : l = []
  · rw [node?, if_pos hroot] at h ⊢
    exact h
  · rw [node?, if_neg hroot] at h ⊢
    rw [makeDirectory]
    generalize s.nodes = nodes at h ⊢
    induction List.range l'.length generalizing nodes with
    | nil => exact h
    | cons n ns ih =>
      rw [List.foldl_cons]
      apply ih
      rw [Dictionary.get?_insertNew, h]
      rfl

theorem makeDirectory_keeps (s : FileStore) (l' l : Location) : s.Keeps (s.makeDirectory l') l where
  home := rfl
  directories := fun _ h => node?_makeDirectory h l'
  node := fun h => node?_makeDirectory h l'

theorem find_inv (h : s.find path = .ok (l, node)) :
    ∃ start, s.origin path = .ok start ∧ (Path.names path).foldlM s.descend start = .ok l ∧
      s.node? l = some node := by
  rw [find] at h
  obtain ⟨start, horigin, h⟩ := bind_eq_ok h
  obtain ⟨l', hwalk, h⟩ := bind_eq_ok h
  cases hnode : s.node? l' with
  | none =>
    rw [hnode] at h
    cases h
  | some found =>
    rw [hnode] at h
    cases h
    exact ⟨start, horigin, hwalk, hnode⟩

/-- What a path leads to is still there. -/
theorem Keeps.find (h : s.Keeps s' l) (hfind : s.find path = .ok (l, node)) :
    s'.find path = .ok (l, node) := by
  obtain ⟨start, horigin, hwalk, hnode⟩ := find_inv hfind
  rw [← origin_eq_of_home h.home] at horigin
  exact find_of_walk horigin (h.directories.walk hwalk) (h.node hnode)

end FileStore

/-! ## Actions -/

inductive FileAction
  | save (p : Program) (path : String)
  | write (path : String) (bytes : Bytes)
  | makeDirectory (path : String)
  | load (path : String)
  | execute (settings : Settings) (fuel : Nat) (p : Program)
  | executeFile (settings : Settings) (fuel : Nat) (path : String)
  deriving DecidableEq, Repr

inductive FileAnswer
  | done
  | refused (fault : IoFault)
  | failed (error : ImageError)
  | loaded (p : Program)
  | executed (result : ExecutionResult)
  deriving DecidableEq, Repr

namespace FileStore

variable {s s' : FileStore} {p : Program} {path : String} {l : Location} {node : Node}

/-- The store after an action, and what the action answers. -/
def act (s : FileStore) : FileAction → FileStore × FileAnswer
  | .save p path =>
    match s.save p path with
    | .ok s' => (s', .done)
    | .error e => (s, .failed e)
  | .write path bytes =>
    match s.write path bytes with
    | .ok s' => (s', .done)
    | .error fault => (s, .refused fault)
  | .makeDirectory path => (s.makeDirectory (s.spelled path), .done)
  | .load path =>
    match s.load path with
    | .ok p => (s, .loaded p)
    | .error e => (s, .failed e)
  | .execute settings fuel p => (s, .executed (settings.execute fuel p))
  | .executeFile settings fuel path => (s, .executed (settings.executeFile fuel s path))

/-- One action, as a request to the store. -/
def serve (s : FileStore) (action : FileAction) : FileAnswer × FileStore :=
  (s.act action).swap

def after (s : FileStore) (actions : List FileAction) : FileStore :=
  Serving.after serve s actions

end FileStore

/-- Files are written at allowed paths, or not at all. -/
inductive FileAction.WritesOnly (s : FileStore) (allowed : String → Prop) : FileAction → Prop
  | save {p : Program} {path : String} (hpath : allowed path) : WritesOnly s allowed (.save p path)
  | failedSave {p : Program} {path : String} {e : ImageError}
      (hfailed : (s.act (.save p path)).2 = .failed e) : WritesOnly s allowed (.save p path)
  | write {path : String} {bytes : Bytes} (hpath : allowed path) :
      WritesOnly s allowed (.write path bytes)
  | makeDirectory {path : String} : WritesOnly s allowed (.makeDirectory path)
  | load {path : String} : WritesOnly s allowed (.load path)
  | execute {settings : Settings} {fuel : Nat} {p : Program} :
      WritesOnly s allowed (.execute settings fuel p)
  | executeFile {settings : Settings} {fuel : Nat} {path : String} :
      WritesOnly s allowed (.executeFile settings fuel path)

theorem FileAction.WritesOnly.mono {s : FileStore} {allowed allowed' : String → Prop}
    {action : FileAction} (h : action.WritesOnly s allowed)
    (himp : ∀ path, allowed path → allowed' path) : action.WritesOnly s allowed' := by
  cases h with
  | save hpath => exact .save (himp _ hpath)
  | failedSave hfailed => exact .failedSave hfailed
  | write hpath => exact .write (himp _ hpath)
  | makeDirectory => exact .makeDirectory
  | load => exact .load
  | execute => exact .execute
  | executeFile => exact .executeFile

/-- Files are written elsewhere, or not at all. -/
def FileAction.Spares (s : FileStore) (l : Location) (action : FileAction) : Prop :=
  action.WritesOnly s fun path => s.location path ≠ l

namespace FileStore

variable {s s' : FileStore} {p : Program} {path : String} {l : Location} {node : Node}
  {actions : List FileAction}

def Spared (s : FileStore) (l : Location) (actions : List FileAction) : Prop :=
  Serving.Along serve (fun s action => action.Spares s l) s actions

/-- Every action writes to other plain paths, or is a save that fails, or writes no file. -/
def OnOtherNames (s : FileStore) (path : String) (actions : List FileAction) : Prop :=
  Serving.Along serve
    (fun s action => action.WritesOnly s fun other => Path.IsPlain other ∧ other ≠ path) s actions

theorem act_save_of_ok (h : s.save p path = .ok s') : s.act (.save p path) = (s', .done) := by
  rw [act, h]

theorem act_save_of_error {e : ImageError} (h : s.save p path = .error e) :
    s.act (.save p path) = (s, .failed e) := by
  rw [act, h]

theorem act_save_failed {e : ImageError} :
    (s.act (.save p path)).2 = .failed e ↔ s.save p path = .error e := by
  cases hsave : s.save p path with
  | ok s' => simp [act_save_of_ok hsave]
  | error e' => simp [act_save_of_error hsave]

theorem act_save_done : s.act (.save p path) = (s', .done) ↔ s.save p path = .ok s' := by
  cases hsave : s.save p path with
  | ok s'' => simp [act_save_of_ok hsave]
  | error e => simp [act_save_of_error hsave]

/-- A failing save leaves the whole store as it was. -/
theorem act_of_failed_save {e : ImageError} (h : (s.act (.save p path)).2 = .failed e) :
    (s.act (.save p path)).1 = s := by
  rw [act_save_of_error (act_save_failed.1 h)]

theorem save_wrote (h : s.save p path = .ok s') :
    ∃ image, Image.encode p = .ok image ∧ s.Wrote s' (s.location path) image ∧
      s'.find path = .ok (s.location path, .file image) := by
  obtain ⟨image, hencode, hwrite⟩ := save_inv h
  obtain ⟨l, htarget, hwrote, hfind⟩ := find_of_write hwrite
  obtain rfl := target_eq_location htarget
  exact ⟨image, hencode, hwrote, hfind⟩

theorem act_keeps {action : FileAction} (h : action.Spares s l) : s.Keeps (s.act action).1 l := by
  cases h with
  | @save p path hother =>
    cases hsave : s.save p path with
    | error e =>
      rw [act_save_of_error hsave]
      exact .refl s l
    | ok s' =>
      obtain ⟨image, -, hwrote, -⟩ := save_wrote hsave
      rw [act_save_of_ok hsave]
      exact hwrote.keeps hother
  | failedSave hfailed =>
    rw [act_of_failed_save hfailed]
    exact .refl s l
  | @write path bytes hother =>
    rw [act]
    cases hwrite : s.write path bytes with
    | error fault => exact .refl s l
    | ok s' =>
      obtain ⟨target, htarget, hwrote⟩ := write_inv hwrite
      rw [← target_eq_location htarget] at hother
      exact hwrote.keeps hother
  | makeDirectory => exact makeDirectory_keeps s _ l
  | @load path =>
    rw [act]
    cases s.load path with
    | error e => exact .refl s l
    | ok p => exact .refl s l
  | execute => exact .refl s l
  | executeFile => exact .refl s l

theorem after_keeps (h : s.Spared l actions) : s.Keeps (s.after actions) l :=
  h.rel (R := fun s s' => s.Keeps s' l) (fun s => .refl s l) .trans fun _ _ => act_keeps

/-- Other plain paths lead elsewhere all the time, since the working directory stays the same. -/
theorem spared_of_onOtherNames (hpath : Path.IsPlain path) (hhome : s'.home = s.home)
    (h : s'.OnOtherNames path actions) : s'.Spared (s.location path) actions := by
  have hspares (t : FileStore) (action : FileAction) (hhome : t.home = s.home)
      (honly : action.WritesOnly t fun other => Path.IsPlain other ∧ other ≠ path) :
      action.Spares t (s.location path) := by
    refine honly.mono ?_
    rintro other ⟨hother, hne⟩
    rw [location_eq_of_home hhome]
    exact location_ne_of_plain hpath hother hne
  refine h.imp_of_invariant (I := fun t => t.home = s.home) ?_ hspares hhome
  intro t action hhome honly
  exact (act_keeps (hspares t action hhome honly)).home.trans hhome

/-- A label is refused before the path is looked at. -/
theorem save_eq_labelConstant {name : String} :
    s.save p path = .error (.labelConstant name) ↔
      Image.encode p = .error (.labelConstant name) := by
  cases hencode : Image.encode p with
  | error e =>
    have hsave : s.save p path = .error e := by rw [save, hencode]; rfl
    rw [hsave, Except.error.injEq, Except.error.injEq]
  | ok image =>
    have hsave : s.save p path = (s.write path image).mapError .io := by rw [save, hencode]; rfl
    cases hwrite : s.write path image with
    | ok s' => simp [hsave, hwrite, Except.mapError]
    | error fault => simp [hsave, hwrite, Except.mapError]

end FileStore

theorem Image.encode_eq_labelConstant {p : Program} (h : p.FitsWords) {name : String} :
    encode p = .error (.labelConstant name) ↔ firstLabel? p.constants.toList = some name := by
  simp only [encode, deliver_writes h, labelOutcome]
  cases firstLabel? p.constants.toList with
  | none => simp
  | some first => simp

theorem exists_firstLabel?_iff {vs : List Value} :
    (∃ name, firstLabel? vs = some name) ↔ ∃ name, .label name ∈ vs := by
  rw [← Option.isSome_iff_exists, firstLabel?, List.findSome?_isSome_iff]
  constructor
  · rintro ⟨v, hv, hlabel⟩
    cases v with
    | integer n => cases hlabel
    | label name => exact ⟨name, hv⟩
  · rintro ⟨name, hname⟩
    exact ⟨_, hname, rfl⟩

/-- A save is refused as a label exactly when there is one among the constants, and a save that
fails changes nothing.  One that does not fail changes nothing but the file at its path; from then
on the program is loaded from there, whatever is done in between, as long as nothing else is written
to this location.  Nothing else is when all paths are plain, since another plain path does not lead
to it: so the program is loaded after all actions on other plain names. -/
theorem saves_in_sessions (s : FileStore) (p : Program) (path : String) (h : p.FitsWords) :
    ((∃ name, (s.act (.save p path)).2 = .failed (.labelConstant name)) ↔
      ∃ name, .label name ∈ p.constants) ∧
    (∀ e, (s.act (.save p path)).2 = .failed e → (s.act (.save p path)).1 = s) ∧
    (∀ s', s.act (.save p path) = (s', .done) →
      (∃ image, Image.encode p = .ok image ∧ s.Wrote s' (s.location path) image) ∧
      (∀ actions, s'.Spared (s.location path) actions →
        (s'.after actions).load path = .ok p ∧
        ∀ other, Path.IsPlain path → Path.IsPlain other → other ≠ path →
          (s'.after actions).location other ≠ s.location path) ∧
      ∀ actions, Path.IsPlain path → s'.OnOtherNames path actions →
        (s'.after actions).load path = .ok p) := by
  refine ⟨?_, fun e => FileStore.act_of_failed_save, ?_⟩
  · simp only [FileStore.act_save_failed, FileStore.save_eq_labelConstant,
      Image.encode_eq_labelConstant h, exists_firstLabel?_iff, Array.mem_toList_iff]
  · intro s' hdone
    obtain ⟨image, hencode, hwrote, hfind⟩ := FileStore.save_wrote (FileStore.act_save_done.1 hdone)
    have hload : ∀ actions, s'.Spared (s.location path) actions →
        (s'.after actions).load path = .ok p := by
      intro actions hspared
      have hread : (s'.after actions).read path = .ok image := by
        rw [FileStore.read, (FileStore.after_keeps hspared).find hfind]
        rfl
      exact FileStore.load_of_read hread hencode
    refine ⟨⟨image, hencode, hwrote⟩, ?_, ?_⟩
    · intro actions hspared
      refine ⟨hload actions hspared, ?_⟩
      intro other hplain hother hne
      have hkeeps := FileStore.after_keeps hspared
      rw [FileStore.location_eq_of_home (hkeeps.home.trans hwrote.home)]
      exact FileStore.location_ne_of_plain hplain hother hne
    · intro actions hplain hothers
      exact hload actions (FileStore.spared_of_onOtherNames hplain hwrote.home hothers)

/-- A saved program stays where it is while another one is saved, a label and a missing directory
are refused, and a directory of its own gets a file of the same name. -/
theorem saves_in_sessions_same_name :
    let s := FileStore.empty ["work"]
    let p : Program := ⟨#[2, 0, 0], #[.integer 42], #[⟨0, 3⟩]⟩
    let saved := (s.act (.save p "p.kbc")).1
    let actions : List FileAction :=
      [.save ⟨#[], #[], #[]⟩ "q.kbc", .save ⟨#[], #[.label "x"], #[]⟩ "p.kbc",
        .save ⟨#[], #[], #[]⟩ "no/p.kbc", .makeDirectory "d", .write "d/p.kbc" [1, 2],
        .load "p.kbc", .executeFile {} 10 "p.kbc", .execute {} 10 p]
    s.act (.save p "p.kbc") = (saved, .done) ∧ saved.Spared (s.location "p.kbc") actions ∧
      saved.OnOtherNames "p.kbc" actions ∧ saved.after actions ≠ saved ∧
      (saved.after actions).load "p.kbc" = .ok p ∧
      (saved.after actions).location "d/p.kbc" ≠ s.location "p.kbc" := by
  intro s p saved actions
  have hfits : p.FitsWords := ⟨by decide, by decide, by decide, by decide, by decide⟩
  have hdone : s.act (.save p "p.kbc") = (saved, .done) := by decide +kernel
  have hothers : saved.OnOtherNames "p.kbc" actions := by
    refine ⟨.save (by decide +kernel), .failedSave rfl, .save (by decide +kernel), .makeDirectory,
      .write (by decide +kernel), .load, .executeFile, .execute, trivial⟩
  have hspared : saved.Spared (s.location "p.kbc") actions :=
    FileStore.spared_of_onOtherNames (by decide +kernel) (by decide +kernel) hothers
  obtain ⟨-, -, hsaved⟩ := saves_in_sessions s p "p.kbc" hfits
  obtain ⟨-, hsession, hnames⟩ := hsaved saved hdone
  exact ⟨hdone, hspared, hothers, by decide +kernel, hnames actions (by decide +kernel) hothers,
    (hsession actions hspared).2 "d/p.kbc" (by decide +kernel) (by decide +kernel) (by decide)⟩

end BlockMachine
