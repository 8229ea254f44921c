import Kirara.Framings
import Kirara.InstalledSkills

namespace Kirara.ContentHashes

open Kirara.Channels Kirara.Dicts Kirara.Rosters Kirara.Fallible Kirara.Framings Kirara.StableSorts
open Kirara.ResourceArchives Kirara.RepositorySkills Kirara.SkillFiles

theorem colon_not_mem_digits (n : Nat) : ':' ∉ Nat.toDigits 10 n :=
  fun h => absurd (Nat.isDigit_of_mem_toDigits (by decide) (by decide) h) (by decide)

theorem newline_not_mem_sha256 {t : Text} (h : isSha256 t = true) : '\n' ∉ t := by
  intro hm
  rw [isSha256, Bool.and_eq_true, List.all_eq_true] at h
  exact absurd (h.2 '\n' hm) (by decide)

theorem toDigits_inj {m n : Nat} (h : Nat.toDigits 10 m = Nat.toDigits 10 n) : m = n := by
  have hvalue := congrArg (fun t => Nat.ofDigitChars 10 t 0) h
  simpa only [Nat.ofDigitChars_ten_toDigits] using hvalue

theorem colon_digits_inj {a b : Text} {m n : Nat}
    (h : a ++ ':' :: Nat.toDigits 10 m = b ++ ':' :: Nat.toDigits 10 n) : a = b ∧ m = n := by
  have hcolon : ∀ {front : Text} {k l : Nat}, ':' :: Nat.toDigits 10 k = front ++ ':' :: Nat.toDigits 10 l →
      front = [] := by
    intro front k l hfront
    cases front with
    | nil => rfl
    | cons c front =>
      rw [List.cons_append] at hfront
      exact absurd ((List.cons.inj hfront).2 ▸ List.mem_append_right front List.mem_cons_self) (colon_not_mem_digits k)
  cases List.append_eq_append_iff.mp h with
  | inl hlong =>
    obtain ⟨front, rfl, hdigits⟩ := hlong
    cases hcolon hdigits
    exact ⟨(List.append_nil a).symm, toDigits_inj (List.cons.inj hdigits).2⟩
  | inr hshort =>
    obtain ⟨front, rfl, hdigits⟩ := hshort
    cases hcolon hdigits
    exact ⟨List.append_nil b, toDigits_inj (List.cons.inj hdigits).2.symm⟩

/-- The records of `_content_hash`: a path, and a size and a digest behind it. -/
def framing : Framing Char (Nat × Text) where
  stop := '\n'
  trailer t := ':' :: (Nat.toDigits 10 t.1 ++ ':' :: t.2)
  Sound t := isSha256 t.2 = true
  closed t ht h := by
    rw [List.mem_cons, List.mem_append, List.mem_cons] at h
    obtain h | h | h | h := h
    · exact absurd h (by decide)
    · exact absurd (Nat.isDigit_of_mem_toDigits (by decide) (by decide) h) (by decide)
    · exact absurd h (by decide)
    · exact newline_not_mem_sha256 ht h
  parted a b t u ht hu h := by
    have hlength : t.2.length = u.2.length := by
      rw [isSha256, Bool.and_eq_true, decide_eq_true_eq] at ht hu
      rw [ht.1, hu.1]
    have hassoc : ∀ (a : Text) (t : Nat × Text), a ++ ':' :: (Nat.toDigits 10 t.1 ++ ':' :: t.2) =
        ((a ++ ':' :: Nat.toDigits 10 t.1) ++ [':']) ++ t.2 := by simp
    rw [hassoc, hassoc] at h
    have hparts := List.append_inj' h hlength
    have hfront := colon_digits_inj (List.append_cancel_right hparts.1)
    exact ⟨hfront.1, Prod.ext hfront.2 hparts.2⟩

def piece (f : ResourceFile) : Text × (Nat × Text) := (f.path, f.size, f.sha256)

theorem piece_inj {f g : ResourceFile} (h : piece f = piece g) : f = g := by
  cases f
  cases g
  cases h
  rfl

def pieces (files : List ResourceFile) : List (Text × (Nat × Text)) := (sortBy ResourceFile.path files).map piece

def digestInput (files : List ResourceFile) : Text := framing.join (pieces files)

theorem record_eq (f : ResourceFile) : record f.path f.size f.sha256 = framing.frame (piece f) := by
  simp [record, Framing.frame, framing, piece]

section Encodings

variable {P : Platform} {t u : Text}

theorem encodeAscii_append : encodeAscii (t ++ u) =
    (encodeAscii t).bind (fun a => (encodeAscii u).map (fun b => a ++ b)) := by
  unfold encodeAscii
  rw [List.all_append, List.map_append]
  cases ht : t.all (fun c => decide (c.toNat < 128)) with
  | false => rfl
  | true => cases hu : u.all (fun c => decide (c.toNat < 128)) <;> rfl

theorem mapM_encodeAscii (ts : List Text) : (ts.mapM encodeAscii).map List.flatten = encodeAscii ts.flatten := by
  induction ts with
  | nil => rfl
  | cons t ts ih =>
    rw [List.mapM_cons, List.flatten_cons, encodeAscii_append, ← ih]
    cases encodeAscii t with
    | error e => rfl
    | ok a => cases ts.mapM encodeAscii <;> rfl

theorem encodeAscii_inj {b : Bytes} (ht : encodeAscii t = .ok b) (hu : encodeAscii u = .ok b) : t = u := by
  have hbytes : ∀ {s : Text}, encodeAscii s = .ok b → Ascii s ∧ s.map (fun c => UInt8.ofNat c.toNat) = b := by
    intro s hs
    refine ⟨encodeAscii_ok_iff.mp ⟨b, hs⟩, ?_⟩
    unfold encodeAscii at hs
    split at hs
    · exact Except.ok.inj hs
    · cases hs
  obtain ⟨hta, htb⟩ := hbytes ht
  obtain ⟨hua, hub⟩ := hbytes hu
  have hsame : t.map (fun c => UInt8.ofNat c.toNat) = u.map (fun c => UInt8.ofNat c.toNat) := htb.trans hub.symm
  clear ht hu htb hub hbytes
  induction t generalizing u with
  | nil => exact (List.map_eq_nil_iff.mp hsame.symm).symm
  | cons c t ih =>
    cases u with
    | nil => cases hsame
    | cons d u =>
      obtain ⟨hhead, htail⟩ := List.cons.inj hsame
      have hc : c.toNat < 128 := hta c List.mem_cons_self
      have hd : d.toNat < 128 := hua d List.mem_cons_self
      have hnat : c.toNat = d.toNat := by
        have hvalue := congrArg UInt8.toNat hhead
        rw [UInt8.toNat_ofNat', UInt8.toNat_ofNat', Nat.mod_eq_of_lt (by omega), Nat.mod_eq_of_lt (by omega)] at hvalue
        exact hvalue
      rw [Char.toNat_inj.mp hnat, ih (fun e he => hta e (List.mem_cons_of_mem c he))
        (fun e he => hua e (List.mem_cons_of_mem d he)) htail]

theorem contentHash_eq (files : List ResourceFile) :
    contentHash P files = (encodeAscii (digestInput files)).map P.sha256 := by
  have htexts : (sortBy ResourceFile.path files).mapM (fun f => encodeAscii (record f.path f.size f.sha256)) =
      ((pieces files).map framing.frame).mapM encodeAscii := by
    rw [pieces, List.mapM_map, List.mapM_map]
    exact congrArg (fun f => List.mapM f (sortBy ResourceFile.path files)) (funext (fun f => by rw [record_eq]; rfl))
  rw [contentHash, htexts, digestInput, Framing.join, ← mapM_encodeAscii]
  cases ((pieces files).map framing.frame).mapM encodeAscii <;> rfl

end Encodings

section Lists

variable (P : Platform)

/-- The lists whose hashes are compared: those of accepted manifests and of mappings. -/
inductive Listed : List ResourceFile → Prop where
  | manifest {payload : Json} {m : ResourceManifest} (h : parseManifest P payload = .ok m) : Listed m.files
  | mapping (files : Dict Text Bytes) : Listed (files.entries.map (manifestFile P))

/-- SHA-256 does not collide on what is hashed for the two lists. -/
def CollisionFree (fs gs : List ResourceFile) : Prop :=
  ∀ a b, encodeAscii (digestInput fs) = .ok a → encodeAscii (digestInput gs) = .ok b → P.sha256 a = P.sha256 b → a = b

/-- Two groupings of one sequence: a path starts with the whole record of a file of the other. -/
def Confused (fs gs : List ResourceFile) : Prop :=
  (∀ f ∈ fs, Ascii f.path) ∧ pieces fs ≠ pieces gs ∧ framing.Regroups (pieces fs) (pieces gs)

variable {P} {fs gs : List ResourceFile}

theorem parseFile_eq_ok {path : Text} {size digest : Json} {f : ResourceFile} (h : parseFile path size digest = .ok f) :
    f.path = path ∧ isSha256 f.sha256 = true := by
  unfold parseFile at h
  split at h
  · split at h
    · split at h
      · next hdigest =>
        cases h
        exact ⟨rfl, hdigest⟩
      · cases h
    · cases h
  · cases h

theorem parseItems_eq_ok {seen : List Text} {items : List Json} (h : parseItems P seen items = .ok fs) :
    (∀ f ∈ fs, isSha256 f.sha256 = true ∧ P.casefold f.path ∉ seen) ∧ (fs.map ResourceFile.path).Nodup := by
  induction items generalizing seen fs with
  | nil =>
    cases h
    exact ⟨fun _ h => (nomatch h), List.nodup_nil⟩
  | cons item items ih =>
    cases item with
    | dict entries =>
      unfold parseItems at h
      split at h
      · cases h
      split at h
      · cases h
      · next path hpath =>
        split at h
        · cases h
        · next hfree =>
          split at h
          · cases h
          · next file hfile =>
            split at h
            · cases h
            · next files hfiles =>
              cases h
              obtain ⟨hfilePath, hdigest⟩ := parseFile_eq_ok hfile
              obtain ⟨hrest, hnodup⟩ := ih hfiles
              refine ⟨fun f hf => ?_, ?_⟩
              · cases List.mem_cons.mp hf with
                | inl he =>
                  rw [he, hfilePath]
                  exact ⟨hdigest, fun hm => hfree (.inr hm)⟩
                | inr hm =>
                  exact ⟨(hrest f hm).1, fun hseen => (hrest f hm).2 (List.mem_cons_of_mem _ hseen)⟩
              · refine List.nodup_cons.mpr ⟨fun hm => ?_, hnodup⟩
                obtain ⟨f, hf, he⟩ := List.mem_map.mp hm
                refine (hrest f hf).2 ?_
                rw [he, hfilePath]
                exact List.mem_cons_self
    | _ => cases h

theorem parseManifest_files {payload : Json} {m : ResourceManifest} (h : parseManifest P payload = .ok m) :
    ∃ items, parseItems P [] items = .ok m.files := by
  unfold parseManifest at h
  split at h
  · split at h
    · cases h
    · obtain ⟨_, _, h⟩ := bind_eq_ok.mp h
      iterate 5 obtain ⟨_, _, h⟩ := bind_eq_ok.mp h
      obtain ⟨files, hfiles, h⟩ := bind_eq_ok.mp h
      iterate 4 obtain ⟨_, _, h⟩ := bind_eq_ok.mp h
      cases h
      unfold parseFiles at hfiles
      split at hfiles
      · exact ⟨_, hfiles⟩
      · cases hfiles
  · cases h

theorem Listed.checked (h : Listed P fs) : (∀ f ∈ fs, isSha256 f.sha256 = true) ∧ (fs.map ResourceFile.path).Nodup := by
  cases h with
  | manifest h =>
    obtain ⟨items, hitems⟩ := parseManifest_files h
    have hparts := parseItems_eq_ok hitems
    exact ⟨fun f hf => (hparts.1 f hf).1, hparts.2⟩
  | mapping files =>
    refine ⟨fun f hf => ?_, ?_⟩
    · obtain ⟨entry, _, rfl⟩ := List.mem_map.mp hf
      exact P.sha256_digits entry.2
    · rw [map_path_manifestFile]
      exact files.distinct

end Lists

variable {P : Platform} {fs gs : List ResourceFile}

theorem sortBy_path_of_perm (hfs : (fs.map ResourceFile.path).Nodup) (h : fs.Perm gs) :
    sortBy ResourceFile.path fs = sortBy ResourceFile.path gs := by
  refine (Rankings.sortBy_of_pairwise (sortBy_perm.trans h) ?_).symm
  have hsorted := (stablySorted_sortBy ResourceFile.path fs).sorted
  have hne : (sortBy ResourceFile.path fs).Pairwise (fun f g => f.path ≠ g.path) :=
    (sortBy_perm.pairwise_iff (fun hab => hab.symm)).mpr (List.pairwise_map.mp hfs)
  exact hsorted.imp₂ (fun _ _ hle hn => lt_of_le_of_ne hle hn) hne

theorem pieces_eq_iff (hfs : (fs.map ResourceFile.path).Nodup) (hgs : (gs.map ResourceFile.path).Nodup) :
    pieces fs = pieces gs ↔ ∀ r, r ∈ fs ↔ r ∈ gs := by
  constructor
  · intro h r
    have hsorted := List.map_injective_iff.mpr (fun _ _ => piece_inj) h
    have hf : r ∈ sortBy ResourceFile.path fs ↔ r ∈ fs := sortBy_perm.mem_iff
    rw [← hf, hsorted, sortBy_perm.mem_iff]
  · intro h
    have hperm : fs.Perm gs := (List.perm_ext_iff_of_nodup (List.Nodup.of_map _ hfs) (List.Nodup.of_map _ hgs)).mpr h
    rw [pieces, pieces, sortBy_path_of_perm hfs hperm]

theorem sound_pieces (h : ∀ f ∈ fs, isSha256 f.sha256 = true) : ∀ r ∈ pieces fs, framing.Sound r.2 := by
  intro r hr
  obtain ⟨f, hf, rfl⟩ := List.mem_map.mp hr
  exact h f (sortBy_perm.mem_iff.mp hf)

theorem ascii_digestInput_iff (h : ∀ f ∈ fs, isSha256 f.sha256 = true) :
    Ascii (digestInput fs) ↔ ∀ f ∈ fs, Ascii f.path := by
  have hmem : ∀ c, c ∈ digestInput fs ↔ ∃ f ∈ fs, c ∈ record f.path f.size f.sha256 := by
    intro c
    simp only [digestInput, Framing.join, pieces, List.map_map, List.mem_flatten, List.mem_map, Function.comp_apply,
      sortBy_perm.mem_iff, ← record_eq]
    exact ⟨fun ⟨_, ⟨f, hf, he⟩, hc⟩ => ⟨f, hf, he ▸ hc⟩, fun ⟨f, hf, hc⟩ => ⟨_, ⟨f, hf, rfl⟩, hc⟩⟩
  constructor
  · exact fun ha f hf => (ascii_record_iff (h f hf)).mp (fun c hc => ha c ((hmem c).mpr ⟨f, hf, hc⟩))
  · intro ha c hc
    obtain ⟨f, hf, hc⟩ := (hmem c).mp hc
    exact (ascii_record_iff (h f hf)).mpr (ha f hf) c hc

theorem same_hash_iff (hfree : CollisionFree P fs gs) :
    (∃ hash, contentHash P fs = .ok hash ∧ contentHash P gs = .ok hash) ↔
      Ascii (digestInput fs) ∧ digestInput fs = digestInput gs := by
  rw [contentHash_eq, contentHash_eq]
  constructor
  · intro ⟨hash, hf, hg⟩
    obtain ⟨a, ha, hfa⟩ := map_eq_ok.mp hf
    obtain ⟨b, hb, hgb⟩ := map_eq_ok.mp hg
    refine ⟨encodeAscii_ok_iff.mp ⟨a, ha⟩, ?_⟩
    cases hfree a b ha hb (hfa.trans hgb.symm)
    exact encodeAscii_inj ha hb
  · intro ⟨hascii, hsame⟩
    obtain ⟨a, ha⟩ := encodeAscii_ok_iff.mpr hascii
    rw [← hsame, ha]
    exact ⟨_, rfl, rfl⟩

theorem contentHash_of_mapping {files : Dict Text Bytes} (h : fs.Perm (files.entries.map (manifestFile P))) :
    contentHash P fs = filesContentHash P files := by
  have hnodup : (fs.map ResourceFile.path).Nodup := by
    rw [(h.map ResourceFile.path).nodup_iff, map_path_manifestFile]
    exact files.distinct
  have hsorted : fs.Perm ((sortedFiles files).map (manifestFile P)) := h.trans (sortBy_perm.symm.map _)
  rw [← contentHash_manifestFile, contentHash, contentHash, sortBy_path_of_perm hnodup hsorted]

/-- Equal hashes are hashes of the same records as long as the lists are not confused, and builder and lifecycle
hash alike. -/
theorem content_hash_injective_iff (hfs : Listed P fs) (hgs : Listed P gs) (hfree : CollisionFree P fs gs) :
    (((∃ hash, contentHash P fs = .ok hash ∧ contentHash P gs = .ok hash) → ∀ r, r ∈ fs ↔ r ∈ gs) ↔
        ¬ Confused fs gs) ∧
      ∀ files rs, rs.Perm (files.entries.map (manifestFile P)) → contentHash P rs = filesContentHash P files := by
  refine ⟨?_, fun files rs h => contentHash_of_mapping h⟩
  obtain ⟨hf, hfn⟩ := hfs.checked
  obtain ⟨hg, hgn⟩ := hgs.checked
  rw [same_hash_iff hfree, ← pieces_eq_iff hfn hgn, ascii_digestInput_iff hf, digestInput, digestInput,
    Framing.join_eq_iff (sound_pieces hf) (sound_pieces hg)]
  exact ⟨fun h ⟨ha, hne, hr⟩ => hne (h ⟨ha, hr⟩), fun h ⟨ha, hr⟩ => not_not.mp (fun hne => h ⟨ha, hne, hr⟩)⟩

open Kirara.InstalledSkills

def separateFiles : Dict Text Bytes :=
  ⟨[("SKILL.md".toList, skillContent), ("ab".toList, otherContent), ("b".toList, skillContent)], by unfold Distinct; decide⟩

def mergedFiles : Dict Text Bytes :=
  ⟨[("SKILL.md".toList, skillContent), (record "ab".toList 3 (sample.sha256 otherContent) ++ "b".toList, skillContent)],
    by unfold Distinct; decide +kernel⟩

def payloadOf (files : Dict Text Bytes) : Json :=
  .dict [("resource_id".toList, .text "skill.0".toList), ("type".toList, .text "skill".toList),
    ("version".toList, .text "1.0.0".toList), ("source".toList, .text "local".toList),
    ("entry".toList, .text entryName), ("permissions".toList, .list []),
    ("files".toList, .list (files.entries.map (fileRecord sample))), ("content_sha256".toList, .text sampleDigest)]

theorem digestInput_separate : digestInput (separateFiles.entries.map (manifestFile sample)) =
    digestInput (mergedFiles.entries.map (manifestFile sample)) := by
  rw [digestInput, digestInput, pieces, pieces, sortBy_sorted (by decide +kernel), sortBy_sorted (by decide +kernel)]
  decide +kernel

theorem collisionFree_separate : CollisionFree sample (separateFiles.entries.map (manifestFile sample))
    (mergedFiles.entries.map (manifestFile sample)) := by
  intro a b ha hb _
  rw [digestInput_separate, hb] at ha
  exact (Except.ok.inj ha).symm

theorem content_hash_separate :
    (((∃ hash, contentHash sample (separateFiles.entries.map (manifestFile sample)) = .ok hash ∧
          contentHash sample (mergedFiles.entries.map (manifestFile sample)) = .ok hash) →
        ∀ r, r ∈ separateFiles.entries.map (manifestFile sample) ↔ r ∈ mergedFiles.entries.map (manifestFile sample)) ↔
      ¬ Confused (separateFiles.entries.map (manifestFile sample)) (mergedFiles.entries.map (manifestFile sample))) ∧
    ∀ files rs, rs.Perm (files.entries.map (manifestFile sample)) → contentHash sample rs = filesContentHash sample files :=
  content_hash_injective_iff (.mapping separateFiles) (.mapping mergedFiles) collisionFree_separate

/-- Three files and two files are accepted and have one hash. -/
theorem two_contents_one_hash : (parseManifest sample (payloadOf separateFiles)).map ResourceManifest.files =
      .ok (separateFiles.entries.map (manifestFile sample)) ∧
    (parseManifest sample (payloadOf mergedFiles)).map ResourceManifest.files =
      .ok (mergedFiles.entries.map (manifestFile sample)) ∧
    digestInput (separateFiles.entries.map (manifestFile sample)) =
      digestInput (mergedFiles.entries.map (manifestFile sample)) ∧
    filesContentHash sample separateFiles = .ok sampleDigest ∧ filesContentHash sample mergedFiles = .ok sampleDigest ∧
    separateFiles.entries.length = 3 ∧ mergedFiles.entries.length = 2 := by
  refine ⟨by decide +kernel, by decide +kernel, digestInput_separate, ?_, ?_, rfl, rfl⟩
  · rw [← contentHash_of_mapping (List.Perm.refl _), contentHash, sortBy_sorted (by decide +kernel)]
    decide +kernel
  · rw [← contentHash_of_mapping (List.Perm.refl _), contentHash, sortBy_sorted (by decide +kernel)]
    decide +kernel

end Kirara.ContentHashes
