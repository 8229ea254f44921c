import Kirara.BuiltArchives

namespace Kirara.InstalledSkills

open Kirara.Channels Kirara.Dicts Kirara.Fallible Kirara.PosixPaths Kirara.ResourceArchives
open Kirara.RepositorySkills Kirara.Rosters Kirara.SkillFiles Kirara.StableSorts Kirara.BuiltArchives

variable {P : Platform}

/-- Neither of two paths is in the way of the other. -/
def Apart (p q : List Text) : Prop := p ≠ q ∧ above p q = false ∧ above q p = false

variable {path : List Text} {content : Bytes}

theorem create_eq_ok {tree next : Tree} : create P path content tree = .ok next ↔
      (P.accepts path = true ∧ path ≠ [] ∧ ∀ p ∈ tree.keys, Apart p path) ∧ tree.set path content = next := by
  rw [create, ite_error_eq_ok, ite_error_eq_ok, Except.ok.injEq, ← and_assoc]
  refine and_congr_left (fun _ => ?_)
  rw [not_or, Bool.not_eq_true', Bool.not_eq_false, List.any_eq_true, and_assoc]
  refine and_congr_right (fun _ => and_congr_right (fun _ => ?_))
  constructor
  · intro h p hp
    have hnot : ¬ (decide (p = path) || above p path || above path p) = true := fun hc => h ⟨p, hp, hc⟩
    rw [Bool.or_eq_true, Bool.or_eq_true, decide_eq_true_eq, not_or, not_or, Bool.not_eq_true, Bool.not_eq_true] at hnot
    exact ⟨hnot.1.1, hnot.1.2, hnot.2⟩
  · intro h ⟨p, hp, hc⟩
    obtain ⟨hne, hpq, hqp⟩ := h p hp
    rw [hpq, hqp, Bool.or_false, Bool.or_false, decide_eq_true_eq] at hc
    exact hne hc

theorem writeText_eq_ok {tree next : Tree} : writeText P path content tree = .ok next ↔
      (P.accepts path = true ∧ path ≠ [] ∧ ∀ p ∈ tree.keys, above p path = false ∧ above path p = false) ∧
      tree.set path content = next := by
  rw [writeText, ite_error_eq_ok, ite_error_eq_ok, Except.ok.injEq, ← and_assoc]
  refine and_congr_left (fun _ => ?_)
  rw [not_or, Bool.not_eq_true', Bool.not_eq_false, List.any_eq_true, and_assoc]
  refine and_congr_right (fun _ => and_congr_right (fun _ => ?_))
  constructor
  · intro h p hp
    have hnot : ¬ (above p path || above path p) = true := fun hc => h ⟨p, hp, hc⟩
    rwa [Bool.or_eq_true, not_or, Bool.not_eq_true, Bool.not_eq_true] at hnot
  · intro h ⟨p, hp, hc⟩
    rw [(h p hp).1, (h p hp).2] at hc
    exact absurd hc (by decide)

theorem extractFiles_iff {infos : List ZipInfo} {fs : List (Text × Bytes)} {tree result : Tree}
    (hopen : ∀ f ∈ fs, openMember infos f.1 = .ok f.2) :
    extractFiles P infos (fs.map (manifestFile P)) tree = .ok result ↔
      (∀ f ∈ fs, P.accepts (components f.1) = true ∧ components f.1 ≠ [] ∧ ∀ p ∈ tree.keys, Apart p (components f.1)) ∧
      fs.Pairwise (fun f g => Apart (components f.1) (components g.1)) ∧
      (fs.map (fun f => (components f.1, f.2))).foldl (fun t f => t.set f.1 f.2) tree = result := by
  induction fs generalizing tree with
  | nil =>
    rw [List.map_nil, extractFiles]
    simp
  | cons f fs ih =>
    have hmem : f ∈ f :: fs := List.mem_cons_self
    rw [List.map_cons, extractFiles, manifestFile, hopen f hmem]
    dsimp only
    rw [List.pairwise_cons]
    constructor
    · intro h
      cases hcreate : create P (components f.1) f.2 tree with
      | error e =>
        rw [hcreate] at h
        cases h
      | ok next =>
        rw [hcreate] at h
        dsimp only at h
        obtain ⟨hfirst, hset⟩ := create_eq_ok.mp hcreate
        obtain ⟨hrest, hpair, hfold⟩ := (ih (fun g hg => hopen g (List.mem_cons_of_mem _ hg))).mp h
        rw [← hset] at hrest hfold
        refine ⟨fun g hg => ?_, ⟨fun g hg => ?_, hpair⟩, hfold⟩
        · cases List.mem_cons.mp hg with
          | inl hg => exact hg ▸ hfirst
          | inr hg =>
            obtain ⟨haccept, hne, hapart⟩ := hrest g hg
            exact ⟨haccept, hne, fun p hp => hapart p (Dict.mem_keys_set.mpr (.inr hp))⟩
        · exact (hrest g hg).2.2 _ (Dict.mem_keys_set.mpr (.inl rfl))
    · rintro ⟨hall, ⟨hhead, hpair⟩, hfold⟩
      rw [create_eq_ok.mpr ⟨hall f hmem, rfl⟩]
      refine (ih (fun g hg => hopen g (List.mem_cons_of_mem _ hg))).mpr ⟨fun g hg => ?_, hpair, hfold⟩
      obtain ⟨haccept, hne, hapart⟩ := hall g (List.mem_cons_of_mem _ hg)
      refine ⟨haccept, hne, fun p hp => ?_⟩
      cases Dict.mem_keys_set.mp hp with
      | inl hp => exact hp ▸ hhead g hg
      | inr hp => exact hapart p hp

variable {o : Origin} {files : Dict Text Bytes} {hash : Text}

theorem openMember_built (hclean : ∀ k ∈ files.keys, Clean k) (hfree : Unreserved P files) {f : Text × Bytes}
    (hf : f ∈ files.entries) : openMember (builtInfos P o files hash) f.1 = .ok f.2 := by
  have hname : (writestr f.1 f.2).filename = f.1 := filename_writestr (hclean f.1 (Dict.mem_keys_iff.mpr ⟨f.2, hf⟩))
  have hmem : writestr f.1 f.2 ∈ builtInfos P o files hash := List.mem_cons_of_mem _ (List.mem_map_of_mem hf)
  have hnodup : ((builtInfos P o files hash).map ZipInfo.filename).Nodup :=
    map_filename_builtInfos hclean ▸ nodup_names hfree
  rw [openMember]
  cases hfind : (builtInfos P o files hash).reverse.find? (fun i => i.filename = f.1) with
  | none => exact absurd (decide_eq_true hname) (List.find?_eq_none.mp hfind _ (List.mem_reverse.mpr hmem))
  | some info =>
    have hfound := List.find?_some hfind
    have hinfo : info.filename = f.1 := of_decide_eq_true hfound
    have hsame : info = writestr f.1 f.2 :=
      List.inj_on_of_nodup_map hnodup (List.mem_reverse.mp (List.mem_of_find?_eq_some hfind)) hmem (hinfo.trans hname.symm)
    rw [hsame]
    rfl

def placed (files : Dict Text Bytes) : List (List Text × Bytes) :=
  (sortedFiles files).map (fun f => (components f.1, f.2))

theorem components_ne (hclean : ∀ k ∈ files.keys, Clean k) {f g : Text × Bytes} (hf : f ∈ files.entries)
    (hg : g ∈ files.entries) (h : components f.1 = components g.1) : f.1 = g.1 :=
  (hclean f.1 (Dict.mem_keys_iff.mpr ⟨f.2, hf⟩)).normal.eq_of_components
    (hclean g.1 (Dict.mem_keys_iff.mpr ⟨g.2, hg⟩)).normal h

theorem distinct_placed (hclean : ∀ k ∈ files.keys, Clean k) : Distinct (placed files) := by
  have hnodup : ((sortedFiles files).map Prod.fst).Nodup :=
    (sortBy_perm.map Prod.fst).nodup_iff.mpr files.distinct
  rw [Distinct, placed, List.map_map]
  refine List.Nodup.map_on (fun f hf g hg h => ?_) hnodup.of_map
  exact List.inj_on_of_nodup_map hnodup hf hg (components_ne hclean (mem_sortedFiles.mp hf) (mem_sortedFiles.mp hg) h)

/-- The file system takes the files and the manifest beside each other. -/
structure Storable (P : Platform) (files : Dict Text Bytes) : Prop where
  accepted : ∀ name ∈ manifestName :: files.keys, P.accepts (components name) = true
  apart : ∀ name ∈ manifestName :: files.keys, ∀ other ∈ manifestName :: files.keys,
    above (components name) (components other) = false

def installed (P : Platform) (o : Origin) (files : Dict Text Bytes) (hash : Text) : Tree :=
  ((placed files).foldl (fun t f => t.set f.1 f.2) Dict.empty).set ["manifest.json".toList]
    (P.printed (manifestOf P o files hash).toDict)

theorem above_self (p : List Text) : above p p = false := by
  rw [above, decide_eq_false (not_not.mpr rfl), Bool.and_false]

theorem components_manifestName : components manifestName = ["manifest.json".toList] := by decide

variable (hclean : ∀ k ∈ files.keys, Clean k)

include hclean

theorem keys_placed : ((placed files).foldl (fun t f => t.set f.1 f.2) Dict.empty).entries = placed files :=
  Dict.foldl_set_entries (d := Dict.empty) (distinct_placed hclean)

theorem extractFiles_built_iff {tree : Tree} (hfree : Unreserved P files) :
    extractFiles P (builtInfos P o files hash) (manifestOf P o files hash).files .empty = .ok tree ↔
      (∀ name ∈ files.keys, P.accepts (components name) = true) ∧
      (∀ name ∈ files.keys, ∀ other ∈ files.keys, above (components name) (components other) = false) ∧
      (placed files).foldl (fun t f => t.set f.1 f.2) Dict.empty = tree := by
  have hopen : ∀ f ∈ sortedFiles files, openMember (builtInfos P o files hash) f.1 = .ok f.2 :=
    fun f hf => openMember_built hclean hfree (mem_sortedFiles.mp hf)
  have hkey {f : Text × Bytes} (hf : f ∈ sortedFiles files) : f.1 ∈ files.keys :=
    Dict.mem_keys_iff.mpr ⟨f.2, mem_sortedFiles.mp hf⟩
  rw [manifestOf, extractFiles_iff hopen, ← placed]
  have hsymm : Std.Symm (fun f g : Text × Bytes => Apart (components f.1) (components g.1)) :=
    ⟨fun _ _ h => ⟨h.1.symm, h.2.2, h.2.1⟩⟩
  constructor
  · rintro ⟨hall, hpair, hfold⟩
    refine ⟨fun name hname => ?_, fun name hname other hother => ?_, hfold⟩
    · obtain ⟨content, hf⟩ := Dict.mem_keys_iff.mp hname
      exact (hall _ (mem_sortedFiles.mpr hf)).1
    · obtain ⟨content, hf⟩ := Dict.mem_keys_iff.mp hname
      obtain ⟨another, hg⟩ := Dict.mem_keys_iff.mp hother
      by_cases he : name = other
      · rw [he, above_self]
      · have hne : (name, content) ≠ (other, another) := fun h => he (congrArg Prod.fst h)
        exact (hpair.forall (mem_sortedFiles.mpr hf) (mem_sortedFiles.mpr hg) hne).2.1
  · rintro ⟨haccept, hapart, hfold⟩
    refine ⟨fun f hf => ⟨haccept _ (hkey hf), (hclean _ (hkey hf)).normal.components_ne_nil, by rintro _ ⟨⟩⟩, ?_,
      hfold⟩
    have hnodup : ((sortedFiles files).map Prod.fst).Nodup :=
      (sortBy_perm.map Prod.fst).nodup_iff.mpr files.distinct
    refine (List.pairwise_map.mp hnodup).imp_of_mem (fun {f g} hf hg hne => ⟨fun h => ?_, ?_, ?_⟩)
    · exact hne (components_ne hclean (mem_sortedFiles.mp hf) (mem_sortedFiles.mp hg) h)
    · exact hapart _ (hkey hf) _ (hkey hg)
    · exact hapart _ (hkey hg) _ (hkey hf)

theorem extractToStaging_built_iff {tree : Tree} (hfree : Unreserved P files) :
    extractToStaging P (builtInfos P o files hash) (manifestOf P o files hash) = .ok tree ↔
      Storable P files ∧ installed P o files hash = tree := by
  have hplace (p : List Text) : p ∈ ((placed files).foldl (fun t f => t.set f.1 f.2) Dict.empty).keys ↔
      ∃ name ∈ files.keys, components name = p := by
    rw [Dict.keys, keys_placed hclean, placed, List.map_map, Dict.keys]
    simp [mem_sortedFiles]
  have hstorable : Storable P files ↔
      ((∀ name ∈ files.keys, P.accepts (components name) = true) ∧
        ∀ name ∈ files.keys, ∀ other ∈ files.keys, above (components name) (components other) = false) ∧
      P.accepts ["manifest.json".toList] = true ∧ ["manifest.json".toList] ≠ [] ∧
        ∀ p ∈ ((placed files).foldl (fun t f => t.set f.1 f.2) Dict.empty).keys,
          above p ["manifest.json".toList] = false ∧ above ["manifest.json".toList] p = false := by
    constructor
    · intro h
      refine ⟨⟨fun name hname => h.accepted _ (List.mem_cons_of_mem _ hname), fun name hname other hother =>
        h.apart _ (List.mem_cons_of_mem _ hname) _ (List.mem_cons_of_mem _ hother)⟩,
        components_manifestName ▸ h.accepted _ List.mem_cons_self, by decide, fun p hp => ?_⟩
      obtain ⟨name, hname, rfl⟩ := (hplace p).mp hp
      rw [← components_manifestName]
      exact ⟨h.apart _ (List.mem_cons_of_mem _ hname) _ List.mem_cons_self,
        h.apart _ List.mem_cons_self _ (List.mem_cons_of_mem _ hname)⟩
    · rintro ⟨⟨haccept, hapart⟩, hmanifest, _, hbeside⟩
      have hfile {name : Text} (hname : name ∈ files.keys) := hbeside _ ((hplace _).mpr ⟨name, hname, rfl⟩)
      constructor
      · intro name hname
        cases List.mem_cons.mp hname with
        | inl h => rw [h, components_manifestName, hmanifest]
        | inr h => exact haccept name h
      · intro name hname other hother
        cases List.mem_cons.mp hname with
        | inl h =>
          cases List.mem_cons.mp hother with
          | inl h' => rw [h, h', above_self]
          | inr h' => rw [h, components_manifestName, (hfile h').2]
        | inr h =>
          cases List.mem_cons.mp hother with
          | inl h' => rw [h', components_manifestName, (hfile h).1]
          | inr h' => exact hapart name h other h'
  rw [extractToStaging, hstorable, and_assoc]
  constructor
  · intro h
    cases hextract : extractFiles P (builtInfos P o files hash) (manifestOf P o files hash).files .empty with
    | error e =>
      rw [hextract] at h
      cases h
    | ok files' =>
      rw [hextract] at h
      obtain ⟨haccept, hapart, rfl⟩ := (extractFiles_built_iff hclean hfree).mp hextract
      exact ⟨⟨haccept, hapart⟩, writeText_eq_ok.mp h⟩
  · rintro ⟨⟨haccept, hapart⟩, h⟩
    rw [(extractFiles_built_iff hclean hfree).mpr ⟨haccept, hapart, rfl⟩]
    exact writeText_eq_ok.mpr h

theorem get_installed (hfree : Unreserved P files) : (installed P o files hash).get path = some content ↔
      path = ["manifest.json".toList] ∧ content = P.printed (manifestOf P o files hash).toDict ∨
        ∃ name, files.get name = some content ∧ path = components name := by
  have hfile : ((placed files).foldl (fun t f => t.set f.1 f.2) Dict.empty).get path = some content ↔
      ∃ name, files.get name = some content ∧ path = components name := by
    rw [Dict.get_eq_some_iff, keys_placed hclean, placed, List.mem_map]
    constructor
    · intro ⟨f, hf, he⟩
      cases he
      exact ⟨f.1, Dict.get_eq_some_iff.mpr (mem_sortedFiles.mp hf), rfl⟩
    · intro ⟨name, hname, hpath⟩
      exact ⟨(name, content), mem_sortedFiles.mpr (Dict.get_eq_some_iff.mp hname), by rw [hpath]⟩
  rw [installed, Dict.get_set]
  split
  · next h =>
    rw [Option.some.injEq]
    refine ⟨fun hc => .inl ⟨h, hc.symm⟩, fun hc => ?_⟩
    obtain ⟨-, hc⟩ | ⟨name, hname, hpath⟩ := hc
    · exact hc.symm
    · have hkey : name ∈ files.keys := Dict.mem_keys_iff.mpr ⟨content, Dict.get_eq_some_iff.mp hname⟩
      have hsame : components name = components manifestName := by rw [← hpath, h, components_manifestName]
      rw [(hclean name hkey).normal.eq_of_components clean_manifestName.normal hsame] at hkey
      exact absurd rfl (hfree _ hkey)
  · next h =>
    rw [hfile]
    exact ⟨.inr, fun hc => hc.resolve_left (fun hm => h hm.1)⟩

omit hclean

theorem strip_ne_nil {t : Text} {c : Char} (hmem : c ∈ t) (hc : isSpace c = false) : strip t ≠ [] := by
  intro h
  rw [strip_eq_nil_iff.mp h c hmem] at hc
  cases hc

theorem not_isSpace_of_isAlphanum {c : Char} (h : c.isAlphanum = true) : isSpace c = false :=
  not_isSpace_of_identifierChar (by rw [identifierChar, h, Bool.true_or])

theorem isAlphanum_of_hex {c : Char} (h : c ∈ "0123456789abcdef".toList) : c.isAlphanum = true := by
  have hall : ("0123456789abcdef".toList : Text).all Char.isAlphanum = true := by decide
  exact List.all_eq_true.mp hall c h

theorem isId_resourceIdOf (sourceKey : Text) : isId (resourceIdOf P sourceKey) = true := by
  have hdigits := P.sha256_digits (encodeUtf8 sourceKey)
  rw [isSha256, Bool.and_eq_true, decide_eq_true_eq, List.all_eq_true] at hdigits
  obtain ⟨hlength, hhex⟩ := hdigits
  have hdigit {c : Char} (hc : c ∈ (P.sha256 (encodeUtf8 sourceKey)).take 16) : c.isAlphanum = true :=
    isAlphanum_of_hex (of_decide_eq_true (hhex c (List.mem_of_mem_take hc)))
  have htake : ((P.sha256 (encodeUtf8 sourceKey)).take 16).length = 16 := by rw [List.length_take, hlength]; rfl
  have hne : (P.sha256 (encodeUtf8 sourceKey)).take 16 ≠ [] := by
    intro h
    rw [h] at htake
    cases htake
  have hlast : (resourceIdOf P sourceKey).getLast? = ((P.sha256 (encodeUtf8 sourceKey)).take 16).getLast? := by
    unfold resourceIdOf
    exact List.getLast?_append_of_ne_nil _ hne
  rw [isId, hlast, Bool.and_eq_true, Bool.and_eq_true, Bool.and_eq_true, decide_eq_true_eq]
  refine ⟨⟨⟨?_, ?_⟩, rfl⟩, ?_⟩
  · unfold resourceIdOf
    rw [List.length_append, htake]
    decide
  · unfold resourceIdOf
    rw [List.all_append, Bool.and_eq_true]
    refine ⟨by decide, List.all_eq_true.mpr (fun c hc => ?_)⟩
    rw [idChar, hdigit hc, Bool.true_or]
  · rw [List.getLast?_eq_some_getLast hne, Option.any_some]
    exact hdigit (List.getLast_mem hne)

theorem isGithubPart_of_valid {owner name : Text} {pair : Text × Text}
    (h : validateRepositoryIdentity owner name = .ok pair) :
    isGithubPart (strip owner) = true ∧ isGithubPart (strip name) = true := by
  rw [validateRepositoryIdentity] at h
  split at h
  · next hparts => exact Bool.and_eq_true_iff.mp hparts
  · cases h

theorem validateRepository_parts {owner name branch : Text} {o n b : Text}
    (h : validateRepository owner name branch = .ok (o, n, b)) : isGithubPart o = true ∧ isGithubPart n = true := by
  rw [validateRepository] at h
  split at h
  · cases h
  · next pair hpair =>
    have hparts := isGithubPart_of_valid hpair
    rw [strip_strip, strip_strip] at hparts
    dsimp only at h
    split at h
    · cases h
    · cases h
      exact hparts

theorem length_validateDirectory {directory d : Text} (h : validateDirectory directory = .ok d) : d.length ≤ 256 := by
  rw [validateDirectory, invalid, ite_error_eq_ok] at h
  obtain ⟨hpattern, h⟩ := h
  rw [invalid, ite_error_eq_ok] at h
  cases h.2
  have hpart := (not_or.mp hpattern).1
  rw [Bool.not_eq_true', Bool.not_eq_false, isDirectoryPart, Bool.and_eq_true, Bool.and_eq_true, decide_eq_true_eq] at hpart
  have hne : stripSlashes (strip directory) ≠ [] := by
    intro he
    rw [he] at hpart
    exact absurd hpart.1.2 (by decide)
  exact le_trans (length_asPosix_le hne) hpart.1.1

theorem resolvedSourceKey_keyed {owner name directory key : Text} (h : resolvedSourceKey owner name directory = .ok key) :
    strip key ≠ [] ∧ key.length ≤ 512 := by
  rw [resolvedSourceKey] at h
  split at h
  · cases h
  · next o n b hvalid =>
    obtain ⟨ho, hn⟩ := validateRepository_parts hvalid
    rw [isGithubPart, Bool.and_eq_true, Bool.and_eq_true, decide_eq_true_eq] at ho hn
    have hkey : ∃ d : Text, d.length ≤ 256 ∧ key = o ++ '/' :: (n ++ ':' :: d) := by
      split at h
      · cases h
        exact ⟨_, by decide, rfl⟩
      · obtain ⟨d, hd, rfl⟩ := map_ok h
        exact ⟨d, length_validateDirectory hd, rfl⟩
    obtain ⟨d, hd, rfl⟩ := hkey
    obtain ⟨c, hc, halnum⟩ := (Option.any_eq_true _ _).mp ho.1.2
    refine ⟨strip_ne_nil (List.mem_append_left _ (List.mem_of_mem_head? hc)) (not_isSpace_of_isAlphanum halnum), ?_⟩
    rw [List.length_append, List.length_cons, List.length_append, List.length_cons]
    omega

theorem strip_skillSourceUrl_ne_nil (owner name branch directory : Text) :
    strip (skillSourceUrl owner name branch directory) ≠ [] := by
  have hmem : 'h' ∈ skillSourceUrl owner name branch directory := by
    rw [skillSourceUrl]
    split
    · exact List.mem_append_left _ (by decide)
    · exact List.mem_append_left _ (List.mem_append_left _ (by decide))
  exact strip_ne_nil hmem (by decide)

theorem described_originOf {owner name branch directory key title description version : Text}
    (hkey : resolvedSourceKey owner name directory = .ok key) (hsemantic : isSemver P.isDecimal version = true)
    (hversion : P.version version = .ok true) :
    Described P (originOf P owner name branch directory key title description version) where
  identified := isId_resourceIdOf key
  semantic := hsemantic
  versioned := hversion
  located := strip_skillSourceUrl_ne_nil owner name branch directory
  keyed := resolvedSourceKey_keyed hkey

/-- The archive is built and valid, and puts the files and the manifest in place. -/
def Installs (P : Platform) (o : Origin) (files : Dict Text Bytes) (size : Nat) : Prop :=
  ∃ infos manifest tree, buildSkillArchive P o files = .ok infos ∧ validateArchive P ⟨size, some infos⟩ = .ok manifest ∧
    extractToStaging P infos manifest = .ok tree ∧ manifest.entry = entryName ∧ [entryName] ∈ tree.keys ∧
    ∀ path content, tree.get path = some content ↔
      path = ["manifest.json".toList] ∧ content = P.printed manifest.toDict ∨
        ∃ name, files.get name = some content ∧ path = components name

theorem installs_of_described {o : Origin} {files : Dict Text Bytes} {size : Nat} (hclean : ∀ k ∈ files.keys, Clean k)
    (hentry : entryName ∈ files.keys) (hdescribed : Described P o) (hport : Portable P files)
    (hroom : ∀ infos, buildSkillArchive P o files = .ok infos → Room infos) (hsize : size ≤ maxArchiveSizeBytes)
    (hjson : ∀ hash, filesContentHash P files = .ok hash →
      P.loads (P.dumps (builtManifest P o files hash)) = .value (builtManifest P o files hash)) :
    Installs P o files size ↔
      (∀ n ∈ files.keys, Ascii n) ∧ Unreserved P files ∧ Storable P files ∧ o.sourceUrl.length ≤ 2048 := by
  have hvalid {hash : Text} (hhash : filesContentHash P files = .ok hash) (m : ResourceManifest) :
      validateArchive P ⟨size, some (builtInfos P o files hash)⟩ = .ok m ↔
        Unreserved P files ∧ o.sourceUrl.length ≤ 2048 ∧ manifestOf P o files hash = m :=
    validateArchive_built_iff hsize (hroom _ (buildSkillArchive_eq_ok.mpr ⟨hash, hhash, rfl⟩)) hdescribed
      (hjson hash hhash) hhash hclean hport hentry
  constructor
  · intro ⟨infos, m, tree, hbuild, hvalidate, hextract, _⟩
    obtain ⟨hash, hhash, rfl⟩ := buildSkillArchive_eq_ok.mp hbuild
    obtain ⟨hfree, hlength, rfl⟩ := (hvalid hhash m).mp hvalidate
    exact ⟨filesContentHash_ok_iff.mp ⟨hash, hhash⟩, hfree, ((extractToStaging_built_iff hclean hfree).mp hextract).1, hlength⟩
  · intro ⟨hascii, hfree, hstore, hlength⟩
    obtain ⟨hash, hhash⟩ := filesContentHash_ok_iff.mpr hascii
    refine ⟨builtInfos P o files hash, manifestOf P o files hash, installed P o files hash,
      buildSkillArchive_eq_ok.mpr ⟨hash, hhash, rfl⟩, (hvalid hhash _).mpr ⟨hfree, hlength, rfl⟩,
      (extractToStaging_built_iff hclean hfree).mpr ⟨hstore, rfl⟩, rfl, ?_, fun _ _ => get_installed hclean hfree⟩
    obtain ⟨content, hmem⟩ := Dict.mem_keys_iff.mp hentry
    have hplace : [entryName] = components entryName := by decide
    rw [← Dict.isSome_get_iff, (get_installed hclean hfree).mpr (.inr ⟨entryName, Dict.get_eq_some_iff.mpr hmem, hplace⟩)]
    rfl

/-- A skill is built and installed as it is when all names are ASCII and none the manifest's,
the files can stand beside each other and the source address is short enough. -/
theorem installs_iff {payload : ZipArchive} {requested directory owner name branch key title description version : Text}
    {files : Dict Text Bytes} {size : Nat} (hfetch : fetchSkillFiles P payload requested = .ok (files, directory))
    (hkey : resolvedSourceKey owner name directory = .ok key) (hsemantic : isSemver P.isDecimal version = true)
    (hversion : P.version version = .ok true) (hport : Portable P files)
    (hroom : ∀ infos, buildSkillArchive P (originOf P owner name branch directory key title description version) files =
      .ok infos → Room infos) (hsize : size ≤ maxArchiveSizeBytes)
    (hjson : ∀ hash, filesContentHash P files = .ok hash →
      P.loads (P.dumps (builtManifest P (originOf P owner name branch directory key title description version)
        files hash)) = .value (builtManifest P (originOf P owner name branch directory key title description version)
        files hash)) :
    Installs P (originOf P owner name branch directory key title description version) files size ↔
      (∀ n ∈ files.keys, Ascii n) ∧ Unreserved P files ∧ Storable P files ∧
        (skillSourceUrl owner name branch directory).length ≤ 2048 := by
  obtain ⟨hclean, hentry⟩ := fetchSkillFiles_clean hfetch
  exact installs_of_described hclean hentry (described_originOf hkey hsemantic hversion) hport hroom hsize hjson

def skillContent : Bytes := encodeUtf8 "# x\n".toList

def otherContent : Bytes := encodeUtf8 "hi\n".toList

/-- The digests of the contents, of the key and of the records of the two files. -/
def sampleDigests : List (Bytes × Text) :=
  [(skillContent, "253b610bd786f2543252c8d4b45bb40eb375882587f825cb9ce1fd1241f66f1e".toList),
    (otherContent, "98ea6e4f216f2fb4b69fff9b3a44842c38686ca685f3f55dc48c5d3fb1107be4".toList),
    (encodeUtf8 "o/r:skills/x".toList, "e749f6d6a2bbc52bb1503b2719238fadfb77e877582681eacf7ef5d8327b66c0".toList)]

def sampleDigest : Text := "2b5b050f91fd7acc4c76b508d58029cc87e8e846fda1e2593a4d8f254054e6b0".toList

def sampleDumped : Bytes :=
  encodeUtf8 (["\x7b\"resource_id\": \"ski", "ll.e749f6d6a2bbc52b\"", ", \"type\": \"skill\", \"", "version\": \"1.0.0\", \"",
    "source\": \"https://gi", "thub.com/o/r/tree/ma", "in/skills/x\", \"sourc", "e_key\": \"o/r:skills/",
    "x\", \"source_metadata", "\": \x7b\"provider\": \"git", "hub\", \"owner\": \"o\", ",
    "\"repository\": \"r\", \"", "branch\": \"main\", \"di", "rectory\": \"skills/x\"",
    ", \"name\": \"x\", \"desc", "ription\": \"\"\x7d, \"entr", "y\": \"SKILL.md\", \"per",
    "missions\": [\"workflo", "w.read\"], \"files\": [", "\x7b\"path\": \"LICENSE\", ", "\"size\": 3, \"sha256\":",
    " \"98ea6e4f216f2fb4b6", "9fff9b3a44842c38686c", "a685f3f55dc48c5d3fb1", "107be4\"\x7d, \x7b\"path\": \"",
    "SKILL.md\", \"size\": 4", ", \"sha256\": \"253b610", "bd786f2543252c8d4b45", "bb40eb375882587f825c",
    "b9ce1fd1241f66f1e\"\x7d]", ", \"content_sha256\": ", "\"2b5b050f91fd7acc4c7", "6b508d58029cc87e8e84",
    "6fda1e2593a4d8f25405", "4e6b0\"\x7d"].flatMap String.toList)

def samplePrinted : Bytes := encodeUtf8 ("\x7b\n  \"resource_id\": \"skill.e749f6d6a2bbc52b\",\n  \"type\": \"skill\",\n  \"version\": \"1.0.0\",\n  ".toList ++
    "\"source\": \"https://github.com/o/r/tree/main/skills/x\",\n  \"entry\": \"SKILL.md\",\n  \"permissions\": [".toList ++
    "\n    \"workflow.read\"\n  ],\n  \"files\": [\n    \x7b\n      \"path\": \"LICENSE\",\n      \"size\": 3,\n ".toList ++
    "     \"sha256\": \"98ea6e4f216f2fb4b69fff9b3a44842c38686ca685f3f55dc48c5d3fb1107be4\"\n    \x7d,\n    \x7b\n".toList ++
    "      \"path\": \"SKILL.md\",\n      \"size\": 4,\n      \"sha256\": \"253b610bd786f2543252c8d4b45bb40eb3758".toList ++
    "82587f825cb9ce1fd1241f66f1e\"\n    \x7d\n  ],\n  \"content_sha256\": \"2b5b050f91fd7acc4c76b508d58029cc87e8e".toList ++
    "846fda1e2593a4d8f254054e6b0\",\n  \"source_key\": \"o/r:skills/x\",\n  \"source_metadata\": \x7b\n    \"prov".toList ++
    "ider\": \"github\",\n    \"owner\": \"o\",\n    \"repository\": \"r\",\n    \"branch\": \"main\",\n    \"dir".toList ++
    "ectory\": \"skills/x\",\n    \"name\": \"x\",\n    \"description\": \"\"\n  \x7d\n\x7d\n".toList)

def sampleManifest : Json :=
  .dict [("resource_id".toList, .text "skill.e749f6d6a2bbc52b".toList), ("type".toList, .text "skill".toList),
    ("version".toList, .text "1.0.0".toList), ("source".toList, .text "https://github.com/o/r/tree/main/skills/x".toList),
    ("source_key".toList, .text "o/r:skills/x".toList),
    ("source_metadata".toList, .dict [("provider".toList, .text "github".toList), ("owner".toList, .text "o".toList),
      ("repository".toList, .text "r".toList), ("branch".toList, .text "main".toList),
      ("directory".toList, .text "skills/x".toList), ("name".toList, .text "x".toList), ("description".toList, .text [])]),
    ("entry".toList, .text "SKILL.md".toList), ("permissions".toList, .list [.text "workflow.read".toList]),
    ("files".toList, .list [.dict [("path".toList, .text "LICENSE".toList), ("size".toList, .atom (.int 3)),
        ("sha256".toList, .text "98ea6e4f216f2fb4b69fff9b3a44842c38686ca685f3f55dc48c5d3fb1107be4".toList)],
      .dict [("path".toList, .text "SKILL.md".toList), ("size".toList, .atom (.int 4)),
        ("sha256".toList, .text "253b610bd786f2543252c8d4b45bb40eb375882587f825cb9ce1fd1241f66f1e".toList)]]),
    ("content_sha256".toList, .text sampleDigest)]

/-- The libraries, on what a small repository asks of them. -/
def sample : Platform where
  sha256 b := (lookup b sampleDigests).getD sampleDigest
  sha256_digits b := by
    have hall : sampleDigests.all (fun d => isSha256 d.2) = true := by decide +kernel
    cases h : lookup b sampleDigests with
    | none => decide +kernel
    | some d => exact List.all_eq_true.mp hall _ (mem_of_lookup h)
  casefold t := t.map Char.toLower
  isDecimal := Char.isDigit
  version t := .ok (t = "1.0.0".toList)
  dumps _ := sampleDumped
  printed _ := samplePrinted
  loads b := if b = sampleDumped then .value sampleManifest else .malformed
  accepts _ := true

/-- A small repository with a skill in a directory, and a file beside the entry. -/
def samplePayload (other : Text) (h : Char.ofNat 0 ∉ other) : ZipArchive where
  size := 600
  infos := some [⟨"r-main/".toList, 0, false, [], by decide⟩, ⟨"r-main/README.md".toList, 3, false, otherContent, by decide⟩,
    ⟨"r-main/skills/x/".toList ++ other, 3, false, otherContent, fun hc => (List.mem_append.mp hc).elim (by decide) h⟩,
    ⟨"r-main/skills/x/SKILL.md".toList, 4, false, skillContent, by decide⟩]

def sampleFiles : Dict Text Bytes :=
  ⟨[("LICENSE".toList, otherContent), ("SKILL.md".toList, skillContent)], by unfold Distinct; decide⟩

def sampleOrigin : Origin :=
  originOf sample "o".toList "r".toList "main".toList "skills/x".toList "o/r:skills/x".toList "x".toList [] "1.0.0".toList

theorem sortedFiles_sample : sortedFiles sampleFiles = sampleFiles.entries := sortBy_sorted (by decide +kernel)

theorem filesContentHash_sample : filesContentHash sample sampleFiles = .ok sampleDigest := by
  rw [← contentHash_manifestFile, sortedFiles_sample, contentHash, sortBy_sorted (by decide +kernel)]
  decide +kernel

theorem builtManifest_sample : builtManifest sample sampleOrigin sampleFiles sampleDigest = sampleManifest := by
  rw [builtManifest, manifestFields, sortedFiles_sample]
  rfl

theorem length_sampleDumped : sampleDumped.length = 687 := by decide +kernel

theorem sizes_sample : (builtInfos sample sampleOrigin sampleFiles sampleDigest).map ZipInfo.fileSize = [687, 3, 4] :=
  congrArg (· :: [3, 4]) length_sampleDumped

theorem room_sample : Room (builtInfos sample sampleOrigin sampleFiles sampleDigest) where
  count := by decide
  each info h := by
    have hsmall : ∀ n ∈ [687, 3, 4], n ≤ maxMemberSizeBytes := by decide
    exact hsmall _ (sizes_sample ▸ List.mem_map_of_mem h)
  total := by
    rw [sizes_sample]
    decide
  manifest info h := by
    cases Option.some.inj h
    exact le_of_eq_of_le length_sampleDumped (by decide)

theorem installs_sample : Installs sample sampleOrigin sampleFiles 600 := by
  have hhash {hash : Text} (h : filesContentHash sample sampleFiles = .ok hash) : hash = sampleDigest :=
    Except.ok.inj (h.symm.trans filesContentHash_sample)
  have hfetch : fetchSkillFiles sample (samplePayload "LICENSE".toList (by decide)) "x".toList =
      .ok (sampleFiles, "skills/x".toList) := rfl
  have hkey : resolvedSourceKey "o".toList "r".toList "skills/x".toList = .ok "o/r:skills/x".toList := by decide +kernel
  have hroom (infos : List ZipInfo) (h : buildSkillArchive sample sampleOrigin sampleFiles = .ok infos) : Room infos := by
    obtain ⟨hash, hok, rfl⟩ := buildSkillArchive_eq_ok.mp h
    cases hhash hok
    exact room_sample
  have hjson (hash : Text) (h : filesContentHash sample sampleFiles = .ok hash) :
      sample.loads (sample.dumps (builtManifest sample sampleOrigin sampleFiles hash)) =
        .value (builtManifest sample sampleOrigin sampleFiles hash) := by
    cases hhash h
    have hloads : sample.loads sampleDumped = .value sampleManifest := by
      dsimp only [sample]
      rw [if_pos rfl]
    rw [builtManifest_sample]
    exact hloads
  have hport : Portable sample sampleFiles := ⟨by decide, by decide, by decide +kernel⟩
  refine (installs_iff hfetch hkey (by decide +kernel) rfl hport hroom (by decide) hjson).mpr
    ⟨?_, ?_, ⟨fun _ _ => rfl, by decide +kernel⟩, by decide +kernel⟩
  · unfold Ascii
    decide +kernel
  · unfold Unreserved
    decide +kernel

def accentedFiles : Dict Text Bytes :=
  ⟨[("Résumé.md".toList, otherContent), ("SKILL.md".toList, skillContent)], by unfold Distinct; decide⟩

/-- A file with an accent in its name makes the builder raise another exception. -/
theorem accented_raises : fetchSkillFiles sample (samplePayload "Résumé.md".toList (by decide)) "x".toList =
      .ok (accentedFiles, "skills/x".toList) ∧
    resolvedSourceKey "o".toList "r".toList "skills/x".toList = .ok "o/r:skills/x".toList ∧
    isSemver sample.isDecimal "1.0.0".toList = true ∧ sample.version "1.0.0".toList = .ok true ∧
    Portable sample accentedFiles ∧ buildSkillArchive sample sampleOrigin accentedFiles = .error .unicodeError ∧
    ∀ size, ¬ Installs sample sampleOrigin accentedFiles size := by
  have hsorted : sortedFiles accentedFiles = accentedFiles.entries := sortBy_sorted (by decide +kernel)
  have hhash : filesContentHash sample accentedFiles = .error .unicodeError := by
    rw [← contentHash_manifestFile, hsorted, contentHash, sortBy_sorted (by decide +kernel)]
    decide +kernel
  have hbuild : buildSkillArchive sample sampleOrigin accentedFiles = .error .unicodeError := by
    rw [buildSkillArchive, hhash]
  have hfetch : fetchSkillFiles sample (samplePayload "Résumé.md".toList (by decide)) "x".toList =
      .ok (accentedFiles, "skills/x".toList) := rfl
  refine ⟨hfetch, by decide +kernel, by decide +kernel, rfl, ⟨by decide, by decide, by decide +kernel⟩, hbuild,
    ?_⟩
  rintro size ⟨infos, _, _, h, _⟩
  rw [hbuild] at h
  cases h

end Kirara.InstalledSkills
