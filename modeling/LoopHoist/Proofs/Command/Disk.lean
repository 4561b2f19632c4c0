import LoopHoist.Command.Disk
import LoopHoist.Proofs.Lists

/-!
# Disks and their laws

The command may run on any disk.  Which file a path leads to is the business of the disk, with
its directories, links and mounted volumes; several paths may lead to one file.  All that is
asked of a disk is that making, reading and writing a file do what they say and nothing else,
as they do as long as nobody else works on it.
-/

namespace LoopHoist.Command

/-- What is seen of the states of a disk: the file that a path leads to, and the text that a file
holds, unless what it holds is no text.  A device that is written to holds what was sent to it
since it was opened. -/
structure DiskView (State File : Type) where
  locate : State → String → Option File
  content : State → File → Option String

namespace DiskView

variable {State File : Type} {view : DiskView State File}

/-- A path that led to a file leads there still, and the file holds nothing.  A path that led
nowhere leads to a new file. -/
structure Creates (view : DiskView State File) (path : String) (before : State) (file : File)
    (after : State) : Prop where
  located : view.locate after path = some file
  empty : view.content after file = some ""
  locate_eq : ∀ {other : String} {found : File}, view.locate before other = some found →
    view.locate after other = some found
  content_eq : ∀ {other : File}, other ≠ file → view.content after other = view.content before other
  fresh : view.locate before path = none → ∀ other, view.locate before other ≠ some file

structure Reads (view : DiskView State File) (path : String) (before : State) (text : String)
    (after : State) : Prop where
  content : ∀ {file : File}, view.locate before path = some file →
    view.content before file = some text
  locate_eq : ∀ other, view.locate after other = view.locate before other
  content_eq : ∀ other, view.content after other = view.content before other

structure Writes (view : DiskView State File) (file : File) (text : String)
    (before after : State) : Prop where
  content : view.content after file = some text
  locate_eq : ∀ other, view.locate after other = view.locate before other

/-- Whatever a disk does without an error, it does as it should.  Texts are written to files that
hold nothing yet. -/
structure IsLawful (view : DiskView State File) [Disk (StateM State) File] : Prop where
  create : ∀ {path : String} {before after : State} {file : File},
    StateT.run (m := Id) (Disk.create path) before = (.ok file, after) →
      view.Creates path before file after
  read : ∀ {path text : String} {before after : State},
    StateT.run (m := Id) (Disk.read path) before = (.ok text, after) →
      view.Reads path before text after
  write : ∀ {file : File} {text : String} {before after : State},
    view.content before file = some "" →
    StateT.run (m := Id) (Disk.write file text) before = (.ok (), after) →
      view.Writes file text before after

/-- A path leads to the file that was made only if the path it was made under did. -/
theorem Creates.locate_of_shared {path other : String} {before after : State} {file : File}
    (h : view.Creates path before file after) (hother : view.locate before other = some file) :
    view.locate before path = some file := by
  cases hpath : view.locate before path with
  | none => exact absurd hother (h.fresh hpath other)
  | some found => exact (h.locate_eq hpath).symm.trans h.located

end DiskView

/-! ## The disk that is a value -/

variable {image : DiskImage} {entry : Entry} {folder : Folder} {path text : String}

theorem Folder.isWithin_refl (folder : Folder) : folder.isWithin folder = true :=
  List.isSuffixOf_iff_suffix.mpr List.suffix_rfl

theorem Folder.isWithin_trans {inner middle outer : Folder} (h : inner.isWithin middle = true)
    (h' : middle.isWithin outer = true) : inner.isWithin outer = true := by
  rw [isWithin, List.isSuffixOf_iff_suffix] at h h' ⊢
  exact h'.trans h

theorem Folder.isWithin_up (folder : Folder) : folder.isWithin folder.up = true := by
  rw [isWithin, List.isSuffixOf_iff_suffix]
  exact List.tail_suffix _

namespace DiskImage

theorem content?_put (image : DiskImage) (entry other : Entry) (content : String) :
    (image.put entry content).content? other =
      if other = entry then some content else image.content? other := by
  unfold put content?
  by_cases heq : other = entry
  · simp [heq]
  · rw [List.lookup_cons, beq_false_of_ne heq, lookup_filter_ne, if_neg heq, if_neg heq]

theorem hasFolder_iff : image.hasFolder folder = true ↔
    Folder.working.isWithin folder = true ∨
      ∃ file ∈ image.files, file.1.folder.isWithin folder = true := by
  rw [hasFolder, Bool.or_eq_true, List.any_eq_true]

theorem hasFolder_mono {outer : Folder} (h : image.hasFolder folder = true)
    (hwithin : folder.isWithin outer = true) : image.hasFolder outer = true := by
  rw [hasFolder_iff] at h ⊢
  rcases h with hworking | ⟨file, hfile, hinside⟩
  · exact .inl (Folder.isWithin_trans hworking hwithin)
  · exact .inr ⟨file, hfile, Folder.isWithin_trans hinside hwithin⟩

/-- A file makes no directory but those that it lies in. -/
theorem hasFolder_put (h : image.hasFolder entry.folder = true) (content : String)
    (folder : Folder) : (image.put entry content).hasFolder folder = image.hasFolder folder := by
  rw [Bool.eq_iff_iff]
  constructor
  · intro hfolder
    rcases hasFolder_iff.mp hfolder with hworking | ⟨file, hfile, hinside⟩
    · exact hasFolder_iff.mpr (.inl hworking)
    · rcases List.mem_cons.mp hfile with rfl | hfile
      · exact hasFolder_mono h hinside
      · exact hasFolder_iff.mpr (.inr ⟨file, List.mem_of_mem_filter hfile, hinside⟩)
  · intro hfolder
    rcases hasFolder_iff.mp hfolder with hworking | ⟨file, hfile, hinside⟩
    · exact hasFolder_iff.mpr (.inl hworking)
    · by_cases heq : file.1 = entry
      · subst heq
        exact hasFolder_iff.mpr (.inr ⟨(file.1, content), List.mem_cons_self, hinside⟩)
      · refine hasFolder_iff.mpr (.inr ⟨file, List.mem_cons_of_mem _ ?_, hinside⟩)
        exact List.mem_filter.mpr ⟨hfile, by simpa using heq⟩

theorem hasFolder_of_follow {parts : List Part} (hfolder : image.hasFolder folder = true)
    (h : image.follow folder parts = .ok (.entry entry)) : image.hasFolder entry.folder = true := by
  fun_induction follow image folder parts with
  | case1 => cases h
  | case2 folder parts ih => exact ih hfolder h
  | case3 folder parts ih => exact ih (hasFolder_mono hfolder folder.isWithin_up) h
  | case4 folder text parts hdown ih => exact ih hdown h
  | case5 =>
      cases h
      exact hfolder
  | case6 => cases h

theorem follow_put (h : image.hasFolder entry.folder = true) (content : String)
    {parts : List Part} {destination : Destination} :
    (image.put entry content).follow folder parts = .ok destination ↔
      image.follow folder parts = .ok destination := by
  fun_induction follow image folder parts with
  | case1 => rfl
  | case2 folder parts ih => exact ih
  | case3 folder parts ih => exact ih
  | case4 folder text parts hdown ih =>
      rw [follow, hasFolder_put h, if_pos hdown]
      exact ih
  | case5 folder text parts hdown hlast =>
      rw [follow, hasFolder_put h, if_neg hdown, if_pos hlast]
  | case6 folder text parts hdown hmore =>
      rw [follow, hasFolder_put h, if_neg hdown, if_neg hmore]
      simp

theorem hasFolder_of_locate (h : image.locate path = .ok (.entry entry)) :
    image.hasFolder entry.folder = true := by
  unfold locate at h
  split at h
  · cases h
  · split at h
    · cases h
    · refine hasFolder_of_follow (hasFolder_iff.mpr (.inl ?_)) h
      simp only [Path.ofText]
      split
      · rfl
      · rfl

theorem locate_put (h : image.hasFolder entry.folder = true) (content : String)
    {destination : Destination} : (image.put entry content).locate path = .ok destination ↔
      image.locate path = .ok destination := by
  unfold locate
  split
  · rfl
  · split
    · rfl
    · exact follow_put h content

/-- The file that a path leads to. -/
def file? (image : DiskImage) (path : String) : Option Entry :=
  match image.locate path with
  | .ok (.entry entry) =>
      if (image.content? entry).isSome && !asksForDirectory path then some entry else none
  | _ => none

theorem file?_eq_some_iff : image.file? path = some entry ↔
    image.locate path = .ok (.entry entry) ∧ (image.content? entry).isSome = true ∧
      asksForDirectory path = false := by
  unfold file?
  cases image.locate path with
  | error error => simp
  | ok destination =>
      cases destination with
      | directory => simp
      | entry found =>
          simp only [Bool.and_eq_true, Bool.not_eq_true', Option.ite_none_right_eq_some,
            Option.some.injEq, Except.ok.injEq, Destination.entry.injEq]
          constructor
          · rintro ⟨hfile, rfl⟩
            exact ⟨rfl, hfile⟩
          · rintro ⟨rfl, hfile⟩
            exact ⟨hfile, rfl⟩

theorem read_eq_ok_iff : image.read path = .ok text ↔ ∃ entry,
    image.file? path = some entry ∧ image.content? entry = some text := by
  simp only [file?_eq_some_iff]
  unfold read
  cases image.locate path with
  | error error => simp
  | ok destination =>
      cases destination with
      | directory => simp
      | entry entry =>
          cases hcontent : image.content? entry with
          | none => simp [hcontent]
          | some content => cases hdirectory : asksForDirectory path <;> simp [hcontent]

theorem create_eq_ok_iff {made : DiskImage} : image.create path = .ok (entry, made) ↔
    image.locate path = .ok (.entry entry) ∧ asksForDirectory path = false ∧
      entry.hasLongName = false ∧ image.put entry "" = made := by
  unfold create
  cases image.locate path with
  | error error => simp
  | ok destination =>
      cases destination with
      | directory => simp
      | entry found =>
          cases hdirectory : asksForDirectory path with
          | true => simp
          | false =>
              by_cases hfound : found = entry
              · subst hfound
                cases hname : found.hasLongName <;> simp [hname]
              · cases hname : found.hasLongName <;> simp [hname, hfound]

def view : DiskView DiskImage Entry := ⟨file?, content?⟩

theorem file?_put (h : image.hasFolder entry.folder = true) (content other : String)
    {found : Entry} : (image.put entry content).file? other = some found ↔
      if found = entry then
        image.locate other = .ok (.entry entry) ∧ asksForDirectory other = false
      else image.file? other = some found := by
  rw [file?_eq_some_iff, locate_put h, content?_put]
  split
  · rename_i heq
    simp [heq]
  · rw [file?_eq_some_iff]

theorem run_create (image : DiskImage) (path : String) :
    StateT.run (m := Id) (Disk.create path) image = match image.create path with
      | .error error => (.error error, image)
      | .ok (entry, made) => (.ok entry, made) := by
  simp only [Disk.create, StateT.run_bind, StateT.run_get, pure_bind]
  cases image.create path with
  | error error => rfl
  | ok result => rfl

theorem creates_put (hlocate : image.locate path = .ok (.entry entry))
    (hfile : asksForDirectory path = false) :
    view.Creates path image entry (image.put entry "") where
  located := by
    refine (file?_put (hasFolder_of_locate hlocate) "" path).mpr ?_
    rw [if_pos rfl]
    exact ⟨hlocate, hfile⟩
  empty := (content?_put ..).trans (if_pos rfl)
  locate_eq := by
    intro other found hfound
    refine (file?_put (hasFolder_of_locate hlocate) "" other).mpr ?_
    split
    · rename_i heq
      subst heq
      obtain ⟨hother, _, hdirectory⟩ := file?_eq_some_iff.mp hfound
      exact ⟨hother, hdirectory⟩
    · exact hfound
  content_eq hne := (content?_put ..).trans (if_neg hne)
  fresh := by
    intro hnone other hother
    obtain ⟨_, hcontent, _⟩ := file?_eq_some_iff.mp hother
    cases hnone.symm.trans (file?_eq_some_iff.mpr ⟨hlocate, hcontent, hfile⟩)

theorem hasFolder_of_content? (h : image.content? entry = some text) :
    image.hasFolder entry.folder = true :=
  hasFolder_iff.mpr (.inr ⟨_, mem_of_lookup h, entry.folder.isWithin_refl⟩)

theorem writes_put {content : String} (h : image.content? entry = some content) (text : String) :
    view.Writes entry text image (image.put entry text) where
  content := (content?_put ..).trans (if_pos rfl)
  locate_eq := by
    intro other
    refine Option.ext fun found => (file?_put (hasFolder_of_content? h) text other).trans ?_
    split
    · rename_i heq
      subst heq
      refine Iff.trans ?_ file?_eq_some_iff.symm
      simp [h]
    · rfl

theorem isLawful_view : view.IsLawful where
  create := by
    intro path before after file h
    rw [run_create] at h
    cases hcreate : before.create path with
    | error error =>
        rw [hcreate] at h
        cases h
    | ok result =>
        obtain ⟨entry, made⟩ := result
        rw [hcreate] at h
        cases h
        obtain ⟨hlocate, hfile, _, rfl⟩ := create_eq_ok_iff.mp hcreate
        exact creates_put hlocate hfile
  read := by
    intro path text before after h
    have hrun : (before.read path, before) = (.ok text, after) := h
    obtain ⟨hread, rfl⟩ := Prod.mk.inj hrun
    obtain ⟨entry, hfile, hcontent⟩ := read_eq_ok_iff.mp hread
    refine ⟨fun hfound => ?_, fun _ => rfl, fun _ => rfl⟩
    cases hfile.symm.trans hfound
    exact hcontent
  write := by
    intro entry text before after hempty h
    have hrun : (Except.ok (), before.put entry text) = (.ok (), after) := h
    obtain ⟨_, rfl⟩ := Prod.mk.inj hrun
    exact writes_put hempty text

end DiskImage

end LoopHoist.Command
