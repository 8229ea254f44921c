import Kirara.BackupAcceptance

namespace Kirara.ExtractionTargets

open Kirara.Channels Kirara.Dicts.Dict Kirara.PosixPaths Kirara.DataBackups Kirara.BackupInspections
open Kirara.DataRestores Kirara.BackupRollbacks Kirara.BackupAcceptance
open Kirara.ResourceArchives (Bytes Json)

variable {P : Platform} {a : Archive} {ms : List Member} {m n : Member} {manifest : BackupManifest} {staging : List Text}

def fileEntries (a : Archive) : List Member := (a.members.getD []).filter (fun m => m.filename ≠ manifestName && !m.isDir)

/-- `staged_path / PurePosixPath(name)`, for a name that is relative. -/
def target (staging : List Text) (m : Member) : List Text := staging ++ components m.filename

/-- The files of an archive go to places of their own in the components, with the contents it
says. -/
structure Contained (P : Platform) (staging : List Text) (a : Archive) (manifest : BackupManifest) : Prop where
  inside : ∀ m ∈ fileEntries a, ∃ c ∈ manifest.components, ∃ p, target staging m = staging ++ c :: p ∧ ∀ x ∈ c :: p, IsName x
  apart : ∀ m ∈ fileEntries a, ∀ n ∈ fileEntries a, m ≠ n → target staging m ≠ target staging n
  described : ∀ ms staged, a.members = some ms → extractFiles ms manifest.files emptyListing = .ok staged →
    (∀ e ∈ staged.entries.entries, ∃ f ∈ manifest.files, components f.path = e.1 ∧
      ∃ content, e.2 = .file content ∧ P.sha256 content = f.sha256) ∧
    ∀ f ∈ manifest.files, ∃ content, (components f.path, .file content) ∈ staged.entries.entries ∧ P.sha256 content = f.sha256

/-- No two names are told apart by empty parts and dots only. -/
def SpelledApart (a : Archive) : Prop :=
  ∀ m ∈ fileEntries a, ∀ n ∈ fileEntries a, asPosix m.filename = asPosix n.filename → m.filename = n.filename

theorem mem_fileEntries (hms : a.members = some ms) :
    m ∈ fileEntries a ↔ m ∈ ms ∧ m.filename ≠ manifestName ∧ m.isDir = false := by
  simp [fileEntries, hms]

theorem target_eq_iff : target staging m = target staging n ↔ asPosix m.filename = asPosix n.filename := by
  constructor
  · intro h
    exact congrArg ofParts (List.append_cancel_left h)
  · intro h
    rw [target, ← components_asPosix m.filename, h, components_asPosix, target]

theorem isName_of_safe {name x : Text} (h : SafePath name) (hx : x ∈ components name) : IsName x :=
  ⟨isPart_of_mem_components hx, fun hdots => h.inside (hdots ▸ hx)⟩

def pair (name : String) : Archive :=
  ⟨100, some [⟨manifestName, 1, 1, false, some []⟩, ⟨"web/a".toList, 1, 1, false, some [97]⟩,
    ⟨name.toList, 1, 1, false, some [97]⟩]⟩

def pairPlatform (name : String) : Platform :=
  { letter.platform with
    loads := fun _ => .value (.dict [("format_version".toList, .atom (.int 1)), ("created_at".toList, .text []),
      ("application_version".toList, .text ['1']), ("components".toList, .list [.text "web".toList]),
      ("files".toList, .list [BackupFile.toJson ⟨"web/a".toList, letter.digest, 1⟩,
        BackupFile.toJson ⟨name.toList, letter.digest, 1⟩]), ("uncompressed_size".toList, .atom (.int 2))]) }

end Kirara.ExtractionTargets
