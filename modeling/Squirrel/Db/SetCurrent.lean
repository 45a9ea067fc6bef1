import Mathlib.Logic.Function.Basic
import Squirrel.Db.FileName
import Squirrel.Util.PosixFiles

/-!
# Switching CURRENT

`SetCurrentFile` writes the name of the new descriptor into a temporary file and renames that to
`CURRENT`. Every call that it makes may fail. A file system here is a map from names to contents
with a fate, as for the single files of `Env`: by call number, the status, and what the call leaves
of its file where its contents are not determined. That is so after a failed call, which may have
written any part of the data, and after a successful `Append`, whose data may still be in a buffer.
A successful `Sync` or `Close` leaves all that was appended. Renaming is atomic.

All calls but the rename are on the temporary file. So whatever happens before it concerns that file
only, and the one question left is what is in it when the rename succeeds.

## Main results

* `FileSystem.doWriteStringToFile_spec` — only the file is changed, and it is complete on success
* `FileSystem.setCurrentFile_spec` — `CURRENT` is switched, or as it was
* `FileSystem.doWriteStringToFile_of_posix` — what the calls of a `PosixEnv` do is among the fates
-/

namespace Squirrel

open Decimal

/-- What a call returns, and what it leaves of its file where that is not determined. -/
structure Outcome where
  status : Status
  left : Option Bytes → Option Bytes

/-- The files that an `Env` works on. -/
structure FileSystem where
  files : Bytes → Option Bytes
  /-- Calls made so far. -/
  calls : ℕ
  fate : ℕ → Outcome

/-- A `WritableFile`, with what has been appended to it. -/
structure OpenFile where
  fname : Bytes
  appended : Bytes

namespace FileSystem

/-- A call on one file: what it makes of the file if it succeeds is `contents`. -/
def call (fs : FileSystem) (fname : Bytes) (contents : Option Bytes) : Status × FileSystem :=
  let o := fs.fate fs.calls
  (o.status, { fs with
    files := Function.update fs.files fname
      (if o.status.ok then contents else o.left (fs.files fname))
    calls := fs.calls + 1 })

/-- `NewWritableFile`: an empty file. -/
def newWritableFile (fs : FileSystem) (fname : Bytes) : Status × FileSystem :=
  fs.call fname (some [])

/-- `Append`. -/
def append (fs : FileSystem) (f : OpenFile) (data : Bytes) : Status × OpenFile × FileSystem :=
  let o := fs.fate fs.calls
  (o.status, { f with appended := if o.status.ok then f.appended ++ data else f.appended },
    { fs with
      files := Function.update fs.files f.fname (o.left (fs.files f.fname))
      calls := fs.calls + 1 })

def sync (fs : FileSystem) (f : OpenFile) : Status × FileSystem := fs.call f.fname (some f.appended)

def close (fs : FileSystem) (f : OpenFile) : Status × FileSystem :=
  fs.call f.fname (some f.appended)

def deleteFile (fs : FileSystem) (fname : Bytes) : Status × FileSystem := fs.call fname none

/-- `RenameFile`, of a file that exists. -/
def renameFile (fs : FileSystem) (src target : Bytes) : Status × FileSystem :=
  let s := (fs.fate fs.calls).status
  let fs' := { fs with calls := fs.calls + 1 }
  match fs.files src with
  | none => (if s.ok then .error .kNotFound "" else s, fs')
  | some contents =>
    if s.ok then
      (s, { fs' with
        files := Function.update (Function.update fs.files src none) target (some contents) })
    else (s, fs')

/-- `DoWriteStringToFile`. -/
def doWriteStringToFile (fs : FileSystem) (data fname : Bytes) (shouldSync : Bool) :
    Status × FileSystem :=
  let (s, fs) := fs.newWritableFile fname
  if ¬ s.ok then (s, fs)
  else
    let (s, file, fs) := fs.append ⟨fname, []⟩ data
    let (s, fs) := if s.ok ∧ shouldSync then fs.sync file else (s, fs)
    -- a file that has not been closed is closed when it is deleted, and nobody looks at the status
    let (s, fs) := if s.ok then fs.close file else (s, (fs.close file).2)
    let fs := if ¬ s.ok then (fs.deleteFile fname).2 else fs
    (s, fs)

def writeStringToFileSync (fs : FileSystem) (data fname : Bytes) : Status × FileSystem :=
  fs.doWriteStringToFile data fname true

/-- `SetCurrentFile`; nothing if an assertion fails. -/
def setCurrentFile (fs : FileSystem) (dbname : Bytes) (descriptorNumber : ℕ) :
    Option (Status × FileSystem) := do
  let manifest ← descriptorFileName dbname descriptorNumber
  if ¬ dbname ++ ascii "/" <+: manifest then none
  else
    let contents := manifest.drop (dbname.length + 1)
    let tmp ← tempFileName dbname descriptorNumber
    let (s, fs) := fs.writeStringToFileSync (contents ++ ascii "\n") tmp
    let (s, fs) := if s.ok then fs.renameFile tmp (currentFileName dbname) else (s, fs)
    let fs := if ¬ s.ok then (fs.deleteFile tmp).2 else fs
    some (s, fs)

/-! ### One file at a time -/

/-- Only `fname` has changed. -/
def OnlyAt (fs fs' : FileSystem) (fname : Bytes) : Prop :=
  ∀ name, name ≠ fname → fs'.files name = fs.files name

variable {fs fs' fs'' : FileSystem} {fname : Bytes}

theorem OnlyAt.trans (h : OnlyAt fs fs' fname) (h' : OnlyAt fs' fs'' fname) :
    OnlyAt fs fs'' fname := by
  intro name hne
  rw [h' name hne, h name hne]

theorem onlyAt_call (fs : FileSystem) (fname : Bytes) (contents : Option Bytes) :
    OnlyAt fs (fs.call fname contents).2 fname := by
  intro name hne
  exact Function.update_of_ne hne _ _

theorem onlyAt_append (fs : FileSystem) (f : OpenFile) (data : Bytes) :
    OnlyAt fs (fs.append f data).2.2 f.fname := by
  intro name hne
  exact Function.update_of_ne hne _ _

/-- A call that succeeds leaves what it should. -/
theorem files_call_of_ok (fs : FileSystem) (fname : Bytes) (contents : Option Bytes)
    (h : (fs.call fname contents).1.ok = true) :
    (fs.call fname contents).2.files fname = contents := by
  have hok : (fs.fate fs.calls).status.ok = true := h
  rw [call]
  dsimp only
  rw [Function.update_self, if_pos hok]

theorem appended_of_ok (fs : FileSystem) (f : OpenFile) (data : Bytes)
    (h : (fs.append f data).1.ok = true) : (fs.append f data).2.1.appended = f.appended ++ data :=
  if_pos h

theorem onlyAt_refl (fs : FileSystem) (fname : Bytes) : OnlyAt fs fs fname := fun _ _ => rfl

/-- The part of `DoWriteStringToFile` behind `Append`: the file ends up complete, or deleted. -/
theorem finishWrite_spec (fs : FileSystem) (file : OpenFile) (s : Status) (shouldSync : Bool) :
    let r₁ := if s.ok = true ∧ shouldSync = true then fs.sync file else (s, fs)
    let r₂ := if r₁.1.ok = true then r₁.2.close file else (r₁.1, (r₁.2.close file).2)
    let fs' := if ¬ r₂.1.ok = true then (r₂.2.deleteFile file.fname).2 else r₂.2
    OnlyAt fs fs' file.fname ∧
      (r₂.1.ok = true → s.ok = true ∧ fs'.files file.fname = some file.appended) := by
  intro r₁ r₂ fs'
  have h₁ : OnlyAt fs r₁.2 file.fname ∧ (r₁.1.ok = true → s.ok = true) := by
    dsimp only [r₁]
    split
    · next hsync => exact ⟨onlyAt_call _ _ _, fun _ => hsync.1⟩
    · exact ⟨onlyAt_refl _ _, id⟩
  have h₂ : OnlyAt r₁.2 r₂.2 file.fname ∧ (r₂.1.ok = true → r₁.1.ok = true ∧
      r₂.2.files file.fname = some file.appended) := by
    dsimp only [r₂]
    split
    · next hok => exact ⟨onlyAt_call _ _ _, fun hclose => ⟨hok, files_call_of_ok _ _ _ hclose⟩⟩
    · next hfail => exact ⟨onlyAt_call _ _ _, fun hok => absurd hok hfail⟩
  dsimp only [fs']
  split
  · next hfail =>
    exact ⟨(h₁.1.trans h₂.1).trans (onlyAt_call _ _ _), fun hok => absurd hok hfail⟩
  · refine ⟨h₁.1.trans h₂.1, fun hok => ?_⟩
    obtain ⟨hsync, hfiles⟩ := h₂.2 hok
    exact ⟨h₁.2 hsync, hfiles⟩

/-- **Writing a file** changes no other file, and if it succeeds, the file is complete. -/
theorem doWriteStringToFile_spec (fs : FileSystem) (data fname : Bytes) (shouldSync : Bool) :
    OnlyAt fs (fs.doWriteStringToFile data fname shouldSync).2 fname ∧
      ((fs.doWriteStringToFile data fname shouldSync).1.ok = true →
        (fs.doWriteStringToFile data fname shouldSync).2.files fname = some data) := by
  have h₁ := onlyAt_call fs fname (some [])
  rw [doWriteStringToFile, newWritableFile]
  generalize fs.call fname (some []) = r₁ at h₁ ⊢
  obtain ⟨s₁, fs₁⟩ := r₁
  dsimp only
  split
  · next hfail => exact ⟨h₁, fun hok => absurd hok hfail⟩
  · have h₂ := onlyAt_append fs₁ ⟨fname, []⟩ data
    have hdata := appended_of_ok fs₁ ⟨fname, []⟩ data
    have hname : (fs₁.append ⟨fname, []⟩ data).2.1.fname = fname := rfl
    generalize fs₁.append ⟨fname, []⟩ data = r₂ at h₂ hdata hname ⊢
    obtain ⟨s₂, file, fs₂⟩ := r₂
    dsimp only at h₂ hdata hname ⊢
    obtain ⟨honly, hok⟩ := finishWrite_spec fs₂ file s₂ shouldSync
    rw [hname] at honly hok
    refine ⟨(h₁.trans h₂).trans honly, fun h => ?_⟩
    obtain ⟨happend, hfiles⟩ := hok h
    rw [hdata happend, List.nil_append] at hfiles
    exact hfiles

/-! ### The files of a `PosixEnv` -/

section

open PosixFiles

/-- Fates that the calls of `DoWriteStringToFile` may have, with what the deletion leaves if it
fails. -/
def fateOf (s₁ s₂ s₃ unlinked : Status) (synced : Bool) (left : Option Bytes) : ℕ → Outcome
  | 0 => ⟨.success, id⟩
  | 1 => ⟨s₁, id⟩
  | 2 => ⟨if synced then s₂ else s₃, id⟩
  | 3 => if synced then ⟨s₃, id⟩ else ⟨unlinked, fun _ => left⟩
  | _ => ⟨unlinked, fun _ => left⟩

theorem doWriteStringToFile_fateOf (files : Bytes → Option Bytes) (data fname : Bytes)
    {shouldSync : Bool} {s₁ s₂ : Status} (s₃ unlinked : Status) (left : Option Bytes)
    (hskip : ¬ (s₁.ok = true ∧ shouldSync = true) → s₂ = s₁) :
    let r := (⟨files, 0, fateOf s₁ s₂ s₃ unlinked (s₁.ok && shouldSync) left⟩ :
      FileSystem).doWriteStringToFile data fname shouldSync
    r.1 = (if s₂.ok = true then s₃ else s₂) ∧
      (r.1.ok = false → r.2.files fname = if unlinked.ok = true then none else left) := by
  intro r
  by_cases hsync : s₁.ok = true ∧ shouldSync = true
  · obtain ⟨h₁, rfl⟩ := hsync
    by_cases h₂ : s₂.ok = true
    · by_cases h₃ : s₃.ok = true
      · simp [r, doWriteStringToFile, newWritableFile, call, append, sync, close, fateOf, h₁, h₂,
          h₃]
      · simp [r, doWriteStringToFile, newWritableFile, call, append, sync, close, deleteFile,
          fateOf, h₁, h₂, h₃]
    · simp [r, doWriteStringToFile, newWritableFile, call, append, sync, close, deleteFile, fateOf,
        h₁, h₂]
  · obtain rfl := hskip hsync
    have hsynced : (s₂.ok && shouldSync) = false := by
      rwa [← Bool.and_eq_true, Bool.not_eq_true] at hsync
    by_cases h₂ : s₂.ok = true
    · have hskip : shouldSync = false := by simpa [h₂] using hsynced
      by_cases h₃ : s₃.ok = true
      · simp [r, doWriteStringToFile, newWritableFile, call, append, close, fateOf, h₂, h₃, hskip]
      · simp [r, doWriteStringToFile, newWritableFile, call, append, close, deleteFile, fateOf,
          h₂, h₃, hskip]
    · simp [r, doWriteStringToFile, newWritableFile, call, append, close, deleteFile, fateOf, h₂]

open PosixWritableFile in
/-- **A `PosixEnv` is one of these.** Whatever its system calls do in `DoWriteStringToFile`, there
are fates of the calls of the `Env` with the same status and the same files. -/
theorem doWriteStringToFile_of_posix {encode : String → Bytes} (hinj : Function.Injective encode)
    {files files' : PosixFiles} {data : Bytes} {fname : String} {shouldSync : Bool}
    {calls : WriteCalls} (hbuf : calls.buf.length = kWritableFileBufferSize) {s : Status}
    {rest : List WriteResult}
    (h : files.doWriteStringToFile data fname shouldSync calls = some (s, files', rest))
    {named : Bytes → Option Bytes} (hnamed : ∀ name, named (encode name) = files name) :
    ∃ fate, let r :=
  (⟨named, 0, fate⟩ : FileSystem).doWriteStringToFile data (encode fname) shouldSync
      r.1 = s ∧ ∀ name, r.2.files (encode name) = files' name := by
  have hwrote := doWrite_wrote hbuf h
  -- other files are left alone by both
  have hothers : ∀ (fate : ℕ → Outcome) (name : String), name ≠ fname →
      ((⟨named, 0, fate⟩ : FileSystem).doWriteStringToFile data (encode fname) shouldSync).2.files
        (encode name) = files' name := by
    intro fate name hne
    have honly := (doWriteStringToFile_spec ⟨named, 0, fate⟩ data (encode fname) shouldSync).1
    rw [honly _ fun heq => hne (hinj heq), hwrote.others name hne]
    exact hnamed name
  cases hopened : calls.opened with
  | some e =>
    rw [PosixFiles.doWriteStringToFile, hopened] at h
    cases h
    refine ⟨fun _ => ⟨posixError fname e, id⟩, ?_, fun name => ?_⟩
    · simp [doWriteStringToFile, newWritableFile, call]
    · by_cases hname : name = fname
      · subst hname
        simp [doWriteStringToFile, newWritableFile, call, hnamed]
      · exact hothers _ name hname
  | none =>
    obtain ⟨s₁, s₂, s₃, hskip, rfl⟩ := doWrite_statuses hopened h
    have hspec := doWriteStringToFile_fateOf named data (encode fname)
      s₃ (statusOf fname calls.unlinked) (files' fname) hskip
    refine ⟨_, hspec.1, fun name => ?_⟩
    by_cases hname : name = fname
    swap
    · exact hothers _ name hname
    subst hname
    obtain ⟨hstatus, hfailed⟩ := hspec
    by_cases hok : (if s₂.ok = true then s₃ else s₂).ok = true
    · refine Eq.trans ?_ (hwrote.stored hok).symm
      exact (doWriteStringToFile_spec _ data (encode name) shouldSync).2
        (by rw [hstatus]; exact hok)
    · rw [Bool.not_eq_true] at hok
      rw [hfailed (by rw [hstatus]; exact hok)]
      split
      · next hdeleted =>
        have hunlinked := (ok_statusOf name calls.unlinked).mp hdeleted
        rcases hwrote.failed hok with ⟨hne, -⟩ | ⟨-, -, hnone⟩ | ⟨-, hne, -⟩
        · exact absurd hopened hne
        · exact hnone.symm
        · exact absurd hunlinked hne
      · rfl

end

/-! ### The switch -/

/-- The temporary file is not `CURRENT`: their last letters differ. -/
theorem makeFileName_ne_currentFileName (dbname : Bytes) (number : ℕ) :
    makeFileName dbname number (ascii "dbtmp") ≠ currentFileName dbname := by
  intro heq
  have hlast := congrArg (fun l : Bytes => l.getLast?) heq
  have htmp : (makeFileName dbname number (ascii "dbtmp")).getLast? = some 112 := by
    rw [makeFileName, ← List.append_assoc, ← List.append_assoc, ← List.append_assoc,
      List.getLast?_append]
    rfl
  have hcurrent : (currentFileName dbname).getLast? = some 84 := by
    rw [currentFileName, List.getLast?_append]
    rfl
  rw [htmp, hcurrent] at hlast
  exact absurd hlast (by decide)

/-- A rename happens or does not. -/
theorem renameFile_spec (fs : FileSystem) (target : Bytes) {src contents : Bytes}
    (hsrc : fs.files src = some contents) :
    ((fs.renameFile src target).1.ok = true →
      (fs.renameFile src target).2.files target = some contents) ∧
    ((fs.renameFile src target).1.ok = false → (fs.renameFile src target).2.files = fs.files) ∧
    ∀ name, name ≠ src → name ≠ target →
      (fs.renameFile src target).2.files name = fs.files name := by
  by_cases hok : (fs.fate fs.calls).status.ok = true
  · have heq : fs.renameFile src target = ((fs.fate fs.calls).status,
        ⟨Function.update (Function.update fs.files src none) target (some contents), fs.calls + 1,
          fs.fate⟩) := by
      rw [renameFile, hsrc]
      exact if_pos hok
    rw [heq]
    refine ⟨fun _ => Function.update_self _ _ _, fun h => ?_, fun name h₁ h₂ => ?_⟩
    · rw [hok] at h
      cases h
    · show Function.update (Function.update fs.files src none) target (some contents) name = _
      rw [Function.update_of_ne h₂, Function.update_of_ne h₁]
  · have heq : fs.renameFile src target
        = ((fs.fate fs.calls).status, { fs with calls := fs.calls + 1 }) := by
      rw [renameFile, hsrc]
      exact if_neg hok
    rw [heq]
    exact ⟨fun h => absurd h hok, fun _ => rfl, fun _ _ _ => rfl⟩

/-- The part of `SetCurrentFile` behind the write of the temporary file. -/
theorem finishSwitch_spec {fs fs₁ : FileSystem} {s : Status} {tmp current data : Bytes}
    (hne : tmp ≠ current) (honly : OnlyAt fs fs₁ tmp)
    (hdone : s.ok = true → fs₁.files tmp = some data) :
    let r := if s.ok = true then fs₁.renameFile tmp current else (s, fs₁)
    let fs' := if ¬ r.1.ok = true then (r.2.deleteFile tmp).2 else r.2
    (r.1.ok = true → fs'.files current = some data) ∧
      (r.1.ok = false → fs'.files current = fs.files current) ∧
      ∀ name, name ≠ current → name ≠ tmp → fs'.files name = fs.files name := by
  intro r fs'
  have hr : (r.1.ok = true → r.2.files current = some data) ∧
      (r.1.ok = false → r.2.files current = fs.files current) ∧
      ∀ name, name ≠ current → name ≠ tmp → r.2.files name = fs.files name := by
    dsimp only [r]
    split
    · next hok =>
      obtain ⟨hsuccess, hfail, hother⟩ := fs₁.renameFile_spec current (hdone hok)
      refine ⟨hsuccess, fun h => ?_, fun name h₁ h₂ => ?_⟩
      · rw [hfail h, honly current hne.symm]
      · rw [hother name h₂ h₁, honly name h₂]
    · next hfail =>
      exact ⟨fun h => absurd h hfail, fun _ => honly current hne.symm, fun name _ h₂ =>
        honly name h₂⟩
  obtain ⟨hsuccess, hfail, hother⟩ := hr
  -- the second deletion, like the first, is of the temporary file
  dsimp only [fs']
  split
  · next hbad =>
    have hdelete := onlyAt_call r.2 tmp none
    refine ⟨fun h => absurd h hbad, fun h => ?_, fun name h₁ h₂ => ?_⟩
    · exact (hdelete current hne.symm).trans (hfail h)
    · exact (hdelete name h₂).trans (hother name h₁ h₂)
  · exact ⟨hsuccess, hfail, hother⟩

/-- **Switching `CURRENT` is all or nothing.** If it succeeds, `CURRENT` is the name of the
descriptor without the directory, and a newline; if it fails, `CURRENT` is what it was, or is still
missing. Either way no file but `CURRENT` and the temporary one has changed. -/
theorem setCurrentFile_spec (fs : FileSystem) (dbname : Bytes) (number : ℕ) (hpos : 0 < number) :
    ∃ base tmp s fs', descriptorFileName dbname number = some (dbname ++ (ascii "/" ++ base)) ∧
      tempFileName dbname number = some tmp ∧
      fs.setCurrentFile dbname number = some (s, fs') ∧
      (s.ok = true → fs'.files (currentFileName dbname) = some (base ++ ascii "\n")) ∧
      (s.ok = false → fs'.files (currentFileName dbname) = fs.files (currentFileName dbname)) ∧
      ∀ name, name ≠ currentFileName dbname → name ≠ tmp → fs'.files name = fs.files name := by
  have hdescriptor : descriptorFileName dbname number
      = some (dbname ++ (ascii "/" ++ (ascii "MANIFEST-" ++ padded 6 number))) := if_pos hpos
  have htemp : tempFileName dbname number = some (makeFileName dbname number (ascii "dbtmp")) :=
    if_pos hpos
  have hne := makeFileName_ne_currentFileName dbname number
  generalize ascii "MANIFEST-" ++ padded 6 number = base at hdescriptor
  generalize makeFileName dbname number (ascii "dbtmp") = tmp at htemp hne
  have hdrop : (dbname ++ (ascii "/" ++ base)).drop (dbname.length + 1) = base := by
    rw [← List.append_assoc]
    exact List.drop_left' (by rw [List.length_append]; rfl)
  obtain ⟨honly, hdone⟩ := fs.doWriteStringToFile_spec (base ++ ascii "\n") tmp true
  have hset : fs.setCurrentFile dbname number = some
      (let r₁ := fs.doWriteStringToFile (base ++ ascii "\n") tmp true
       let r₂ := if r₁.1.ok = true then r₁.2.renameFile tmp (currentFileName dbname)
         else (r₁.1, r₁.2)
       (r₂.1, if ¬ r₂.1.ok = true then (r₂.2.deleteFile tmp).2 else r₂.2)) := by
    rw [setCurrentFile, hdescriptor, Option.bind_eq_bind, Option.bind_some,
      if_neg (not_not.mpr ⟨base, by rw [List.append_assoc]⟩), htemp, hdrop]
    rfl
  exact ⟨base, tmp, _, _, hdescriptor, htemp, hset, finishSwitch_spec hne honly hdone⟩

/-- A file system with an old `CURRENT`, whose disk is full when the new one is written. -/
def fullDisk : FileSystem where
  files name := if name = ascii "db/CURRENT" then some (ascii "MANIFEST-000001\n") else none
  calls := 0
  fate n := if n = 1 then ⟨.error .kIOError "disk full", fun _ => some (ascii "MANI")⟩
    else ⟨.success, id⟩

theorem setCurrentFile_fullDisk :
    ∃ s fs', fullDisk.setCurrentFile (ascii "db") 2 = some (s, fs') ∧ s.ok = false ∧
      fs'.files (ascii "db/CURRENT") = some (ascii "MANIFEST-000001\n") := by
  obtain ⟨base, tmp, s, fs', -, -, hset, hsuccess, hfail, -⟩ :=
    setCurrentFile_spec fullDisk (ascii "db") 2 (by decide)
  have hs : (fullDisk.setCurrentFile (ascii "db") 2).map Prod.fst
      = some (.error .kIOError "disk full") := by
    rfl
  rw [hset] at hs
  obtain rfl := Option.some.inj hs
  exact ⟨_, fs', hset, rfl, (hfail rfl).trans (by decide)⟩

end FileSystem

end Squirrel
