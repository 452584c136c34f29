import Xdragon.Layers.Layer

/-!
# What a deletion leaves

A digest has two spellings, and both name one file. The four deletions compare digests as they are
spelled, so that a file is lost if a manifest uses the other spelling of a digest that none uses.
-/

open Xdragon.Lib

namespace Xdragon.Layers

/-! ## Spellings -/

/-- The same digest with the other separator. -/
def otherSpelling (digest : Bytes) : Bytes :=
  digest.take 6 ++ (if (digest.drop 6).take 1 = ascii ":" then ascii "-" else ascii ":") ++ digest.drop 7

/-- A digest, taken apart. -/
theorem isDigest_iff {digest : Bytes} : isDigest digest = true ↔
    ∃ sep hex, digest = ascii "sha256" ++ sep ++ hex ∧ (sep = ascii ":" ∨ sep = ascii "-") ∧
      hex.length = 64 ∧ hex.all isHexDigit = true := by
  unfold isDigest
  constructor
  · intro h
    simp only [Bool.and_eq_true, decide_eq_true_eq, List.mem_cons, List.not_mem_nil, or_false] at h
    obtain ⟨⟨⟨hname, hsep⟩, hlen⟩, hhex⟩ := h
    refine ⟨_, _, ?_, hsep, hlen, hhex⟩
    have hdrop : digest.drop 7 = (digest.drop 6).drop 1 := by rw [List.drop_drop]
    rw [hdrop, List.append_assoc, List.take_append_drop, ← hname, List.take_append_drop]
  · rintro ⟨sep, hex, rfl, hsep, hlen, hhex⟩
    rcases hsep with rfl | rfl <;> simp [ascii, hlen, hhex]

theorem replaceAll_hex {hex : Bytes} (h : hex.all isHexDigit = true) {x : UInt8} (hx : isHexDigit x = false)
    (new : Bytes) : replaceAll hex [x] new = hex := by
  apply replaceAll_of_not_infix (List.cons_ne_nil x [])
  intro hin
  have hmem : x ∈ hex := hin.subset (List.mem_singleton_self x)
  rw [List.all_eq_true] at h
  rw [h x hmem] at hx
  cases hx

theorem replaceAll_append_singleton {α : Type*} [DecidableEq α] (x : α) (new s t : List α) :
    replaceAll (s ++ t) [x] new = replaceAll s [x] new ++ replaceAll t [x] new := by
  rw [replaceAll_singleton, replaceAll_singleton, replaceAll_singleton, List.flatMap_append]

/-- Both spellings of a digest name one file. -/
theorem blobsPath_digest {sep hex : Bytes} (hsep : sep = ascii ":" ∨ sep = ascii "-") (hlen : hex.length = 64)
    (hhex : hex.all isHexDigit = true) :
    blobsPath (ascii "sha256" ++ sep ++ hex) = some (ascii "sha256-" ++ hex) := by
  have hdigest : isDigest (ascii "sha256" ++ sep ++ hex) = true := (isDigest_iff).mpr ⟨sep, hex, rfl, hsep, hlen, hhex⟩
  unfold blobsPath
  rw [if_neg (fun h => h.2 hdigest)]
  have hcolon : ascii ":" = [58] := rfl
  rw [hcolon, replaceAll_append_singleton, replaceAll_append_singleton, replaceAll_hex hhex (by decide)]
  have hname : replaceAll (ascii "sha256") [58] (ascii "-") = ascii "sha256" := by decide
  rw [hname]
  rcases hsep with rfl | rfl
  · rfl
  · rfl

theorem blobsPath_of_isDigest {digest : Bytes} (h : isDigest digest = true) :
    blobsPath digest = blobsPath (otherSpelling digest) ∧ otherSpelling digest ≠ digest ∧
      digestOfName ((blobsPath digest).getD []) = ascii "sha256:" ++ digest.drop 7 := by
  obtain ⟨sep, hex, rfl, hsep, hlen, hhex⟩ := (isDigest_iff).mp h
  have hname : digestOfName (ascii "sha256-" ++ hex) = ascii "sha256:" ++ hex := by
    unfold digestOfName
    have hdash : ascii "-" = [45] := rfl
    rw [hdash, replaceAll_append_singleton, replaceAll_hex hhex (by decide)]
    have hdigest : replaceAll (ascii "sha256-") [45] (ascii ":") = ascii "sha256:" := by decide
    rw [hdigest]
  rcases hsep with rfl | rfl
  · have hother : otherSpelling (ascii "sha256" ++ ascii ":" ++ hex) = ascii "sha256" ++ ascii "-" ++ hex := by
      simp [otherSpelling, ascii]
    rw [hother, blobsPath_digest (Or.inl rfl) hlen hhex, blobsPath_digest (Or.inr rfl) hlen hhex]
    refine ⟨rfl, ?_, by rw [Option.getD_some, hname]; rfl⟩
    simp [ascii]
  · have hother : otherSpelling (ascii "sha256" ++ ascii "-" ++ hex) = ascii "sha256" ++ ascii ":" ++ hex := by
      simp [otherSpelling, ascii]
    rw [hother, blobsPath_digest (Or.inl rfl) hlen hhex, blobsPath_digest (Or.inr rfl) hlen hhex]
    refine ⟨rfl, ?_, by rw [Option.getD_some, hname]; rfl⟩
    simp [ascii]

theorem blobsPath_some {digest file : Bytes} (hne : digest ≠ []) (h : blobsPath digest = some file) :
    isDigest digest = true ∧ file ≠ [] := by
  have hdigest : isDigest digest = true := by
    by_contra hno
    rw [blobsPath, if_pos ⟨hne, hno⟩] at h
    cases h
  obtain ⟨sep, hex, rfl, hsep, hlen, hhex⟩ := (isDigest_iff).mp hdigest
  rw [blobsPath_digest hsep hlen hhex, Option.some.injEq] at h
  exact ⟨hdigest, by rw [← h]; simp [ascii]⟩

/-- Two digests name one file only if one is the other spelling of the other. -/
theorem blobsPath_inj {t u file : Bytes} (ht : t ≠ []) (hu : u ≠ []) (h : blobsPath t = some file)
    (h' : blobsPath u = some file) : u = t ∨ u = otherSpelling t := by
  obtain ⟨st, xt, rfl, hst, hlt, hxt⟩ := (isDigest_iff).mp (blobsPath_some ht h).1
  obtain ⟨su, xu, rfl, hsu, hlu, hxu⟩ := (isDigest_iff).mp (blobsPath_some hu h').1
  rw [blobsPath_digest hst hlt hxt, Option.some.injEq] at h
  rw [blobsPath_digest hsu hlu hxu, Option.some.injEq] at h'
  obtain rfl : xu = xt := List.append_cancel_left (h'.trans h.symm)
  rcases hst with rfl | rfl <;> rcases hsu with rfl | rfl
  · exact Or.inl rfl
  · exact Or.inr (by simp [otherSpelling, ascii])
  · exact Or.inr (by simp [otherSpelling, ascii])
  · exact Or.inl rfl

/-! ## One call -/

theorem remove_frame (d : Disk) (path : Bytes) : (d.remove path).1.manifests = d.manifests ∧
    (d.remove path).1.readable = d.readable ∧ (d.remove path).1.refuses = d.refuses := by
  unfold Disk.remove
  repeat' split
  all_goals exact ⟨rfl, rfl, rfl⟩

theorem mem_remove (d : Disk) (path file : Bytes) : file ∈ (d.remove path).1.blobs ↔
    file ∈ d.blobs ∧ ¬ (file = path ∧ path ≠ [] ∧ d.refuses path = false) := by
  unfold Disk.remove
  split
  · rename_i hnil
    simp [hnil]
  · rename_i hne
    split
    · rename_i hno
      constructor
      · exact fun h => ⟨h, fun he => hno (he.1 ▸ h)⟩
      · exact fun h => h.1
    · split
      · rename_i hrefuse
        simp [hrefuse]
      · rename_i hrefuse
        simp [hne, hrefuse]

/-- Of the files that a digest names, those of the unused digests of a list are gone. -/
structure Deleted (d d' : Disk) (targets : List Bytes) : Prop where
  manifests : d'.manifests = d.manifests
  refuses : d'.refuses = d.refuses
  blobs : ∀ digest file, digest ≠ [] → blobsPath digest = some file → (file ∈ d'.blobs ↔
    file ∈ d.blobs ∧ ¬ (d.refuses file = false ∧ ∃ t ∈ targets, t ∉ d.used ∧ blobsPath t = some file))

theorem Deleted.none (d : Disk) {targets : List Bytes} (h : ∀ t ∈ targets, t ∈ d.used ∨ blobsPath t = .none) :
    Deleted d d targets := by
  refine ⟨rfl, rfl, fun digest file _ _ => ⟨fun hf => ⟨hf, ?_⟩, fun hf => hf.1⟩⟩
  rintro ⟨-, t, ht, hno, hpath⟩
  rcases h t ht with hused | hpathless
  · exact hno hused
  · rw [hpathless] at hpath
    cases hpath

/-- One more target, which changes nothing or is deleted before the others. -/
theorem Deleted.skip {d d' : Disk} {t : Bytes} {targets : List Bytes} (h : Deleted d d' targets)
    (ht : t = [] ∨ t ∈ d.used ∨ blobsPath t = .none) : Deleted d d' (t :: targets) := by
  refine ⟨h.manifests, h.refuses, fun digest file hne hfile => ?_⟩
  rw [h.blobs digest file hne hfile]
  have hself : ¬ (t ∉ d.used ∧ blobsPath t = some file) := by
    rintro ⟨hno, hpath⟩
    rcases ht with rfl | hused | hpathless
    · have hnil : file = [] := by simpa [blobsPath] using hpath.symm
      exact (blobsPath_some hne hfile).2 hnil
    · exact hno hused
    · rw [hpathless] at hpath
      cases hpath
  simp only [List.mem_cons, exists_eq_or_imp, hself, false_or]

theorem Deleted.cons {d d' : Disk} {t blob : Bytes} {targets : List Bytes} (hused : t ∉ d.used) (hne : t ≠ [])
    (hblob : blobsPath t = some blob) (h : Deleted (d.remove blob).1 d' targets) : Deleted d d' (t :: targets) := by
  obtain ⟨hm, -, hr⟩ := remove_frame d blob
  have hsame : (d.remove blob).1.used = d.used := by rw [Disk.used, hm, Disk.used]
  refine ⟨h.manifests.trans hm, h.refuses.trans hr, fun digest file hdigest hfile => ?_⟩
  rw [h.blobs digest file hdigest hfile, mem_remove, hr, hsame]
  have hblobNe := (blobsPath_some hne hblob).2
  simp only [List.mem_cons, exists_eq_or_imp, hblob, Option.some.injEq]
  constructor
  · rintro ⟨⟨hmem, hno⟩, hrest⟩
    refine ⟨hmem, ?_⟩
    rintro ⟨hrefuse, ⟨-, rfl⟩ | hex⟩
    · exact hno ⟨rfl, hblobNe, hrefuse⟩
    · exact hrest ⟨hrefuse, hex⟩
  · rintro ⟨hmem, hall⟩
    refine ⟨⟨hmem, ?_⟩, fun hrest => hall ⟨hrest.1, Or.inr hrest.2⟩⟩
    rintro ⟨rfl, -, hrefuse⟩
    exact hall ⟨hrefuse, Or.inl ⟨hused, rfl⟩⟩

/-- `RemoveLayers` goes on after this digest. -/
def passes (d : Disk) (digest : Bytes) : Bool :=
  digest = [] || digest ∈ d.used || match blobsPath digest with
    | none => false
    | some file => file ∉ d.blobs || !d.refuses file

/-- Deleting a file stops no later deletion. -/
theorem passes_remove (d : Disk) (path : Bytes) : passes (d.remove path).1 = passes d := by
  funext digest
  obtain ⟨hm, -, hr⟩ := remove_frame d path
  have hsame : (d.remove path).1.used = d.used := by rw [Disk.used, hm, Disk.used]
  unfold passes
  rw [hsame, hr]
  congr 1
  cases hpath : blobsPath digest with
  | none => rfl
  | some file =>
    simp only [mem_remove]
    by_cases hfile : file = path ∧ path ≠ [] ∧ d.refuses path = false
    · obtain ⟨rfl, -, hrefuse⟩ := hfile
      simp [hrefuse]
    · simp [hfile]

theorem remove_refused {d : Disk} {path : Bytes} (hne : path ≠ []) :
    (∃ p, (d.remove path).2 = some (.refused p)) ↔ path ∈ d.blobs ∧ d.refuses path = true := by
  unfold Disk.remove
  rw [if_neg hne]
  split
  · rename_i hno
    simp [hno]
  · rename_i hmem
    split
    · rename_i hrefuse
      simp only [not_not] at hmem
      simp [hmem, hrefuse]
    · rename_i hrefuse
      simp [hrefuse]

theorem passes_iff {d : Disk} {digest blob : Bytes} (hne : digest ≠ []) (hused : digest ∉ d.used)
    (hblob : blobsPath digest = some blob) : passes d digest = true ↔ ¬ (blob ∈ d.blobs ∧ d.refuses blob = true) := by
  simp only [passes, hne, hused, hblob, decide_false, Bool.false_or, Bool.or_eq_true, decide_eq_true_eq,
    Bool.not_eq_true', not_and, Bool.not_eq_true]
  exact Decidable.imp_iff_not_or.symm

theorem removeLayersLoop_deleted (layers : List Layer) (d : Disk) {inUse : List Bytes}
    (hinUse : inUse = d.used.filter (· ≠ [])) :
    Deleted d (removeLayersLoop inUse layers d).1 ((layers.map (·.digest)).takeWhile (passes d)) := by
  induction layers generalizing d with
  | nil => exact Deleted.none d (by simp)
  | cons layer rest ih =>
    unfold removeLayersLoop
    rw [List.map_cons]
    by_cases hnil : layer.digest = []
    · rw [if_pos hnil, List.takeWhile_cons_of_pos (by simp [passes, hnil])]
      exact (ih d hinUse).skip (Or.inl hnil)
    · rw [if_neg hnil]
      have hmem : layer.digest ∈ inUse ↔ layer.digest ∈ d.used := by simp [hinUse, hnil]
      by_cases hused : layer.digest ∈ d.used
      · rw [if_pos (hmem.mpr hused), List.takeWhile_cons_of_pos (by simp [passes, hused])]
        exact (ih d hinUse).skip (Or.inr (Or.inl hused))
      · rw [if_neg (hmem.not.mpr hused)]
        cases hblob : blobsPath layer.digest with
        | none =>
          rw [List.takeWhile_cons_of_neg (by simp [passes, hnil, hused, hblob])]
          exact Deleted.none d (by simp)
        | some blob =>
          have hblobNe := (blobsPath_some hnil hblob).2
          have hrefused := @remove_refused d blob hblobNe
          obtain ⟨hm, -, hr⟩ := remove_frame d blob
          have hrest := ih (d.remove blob).1 (by rw [hinUse, Disk.used, Disk.used, hm])
          rw [passes_remove] at hrest
          have hmore := hrest.cons hused hnil hblob
          by_cases hstop : blob ∈ d.blobs ∧ d.refuses blob = true
          · rw [List.takeWhile_cons_of_neg (fun h => (passes_iff hnil hused hblob).mp h hstop)]
            obtain ⟨p, hp⟩ := hrefused.mpr hstop
            have hsame : (d.remove blob).1 = d := by
              unfold Disk.remove
              simp [hblobNe, hstop]
            cases hout : d.remove blob with
            | mk d' err =>
              rw [hout] at hp hsame
              simp only at hp hsame
              subst hp hsame
              simp only [hout]
              exact Deleted.none _ fun t ht => absurd ht List.not_mem_nil
          · rw [List.takeWhile_cons_of_pos ((passes_iff hnil hused hblob).mpr hstop)]
            cases hout : d.remove blob with
            | mk d' err =>
              rw [hout] at hmore
              have hno : ∀ p, err ≠ some (.refused p) := by
                intro p hp
                exact hstop (hrefused.mp ⟨p, by rw [hout, hp]⟩)
              simp only [hout]
              cases err with
              | none => exact hmore
              | some e =>
                cases e with
                | refused p => exact absurd rfl (hno p)
                | unreadableManifests => exact hmore
                | invalidDigestFormat => exact hmore
                | notExist p => exact hmore

theorem removeLayers_deleted (m : Manifest) {d : Disk} (h : d.readable = true) :
    Deleted d (removeLayers m d).1 ((m.all.map (·.digest)).takeWhile (passes d)) := by
  unfold removeLayers
  rw [h]
  exact removeLayersLoop_deleted m.all d rfl

theorem remove_deleted (l : Layer) {d : Disk} (h : d.readable = true) : Deleted d (l.remove d).1 [l.digest] := by
  have hnone : Deleted d d [] := Deleted.none d fun t ht => absurd ht List.not_mem_nil
  unfold Layer.remove
  rw [h]
  split
  · rename_i hnil
    exact hnone.skip (Or.inl hnil)
  · rename_i hne
    simp only [Bool.not_true, Bool.false_eq_true, if_false]
    split
    · rename_i hused
      exact hnone.skip (Or.inr (Or.inl hused))
    · rename_i hused
      cases hblob : blobsPath l.digest with
      | none => exact hnone.skip (Or.inr (Or.inr hblob))
      | some blob => exact (Deleted.none _ fun t ht => absurd ht List.not_mem_nil).cons hused hne hblob

theorem deleteLoop_deleted (targets : List Bytes) (d : Disk) :
    Deleted d (deleteLoop (targets.filter (· ∉ d.used)) d) targets := by
  induction targets generalizing d with
  | nil => exact Deleted.none d fun t ht => absurd ht List.not_mem_nil
  | cons t targets ih =>
    by_cases hused : t ∈ d.used
    · rw [List.filter_cons_of_neg (by simpa using hused)]
      exact (ih d).skip (Or.inr (Or.inl hused))
    · rw [List.filter_cons_of_pos (by simpa using hused)]
      unfold deleteLoop
      cases hblob : blobsPath t with
      | none => exact (ih d).skip (Or.inr (Or.inr hblob))
      | some blob =>
        have hrest := ih (d.remove blob).1
        have hsame : (d.remove blob).1.used = d.used := by rw [Disk.used, (remove_frame d blob).1, Disk.used]
        rw [hsame] at hrest
        by_cases hnil : t = []
        · -- The directory itself: none of its entries is removed.
          obtain rfl : blob = [] := by simpa [hnil, blobsPath] using hblob.symm
          have hkeep : (d.remove []).1 = d := by simp [Disk.remove]
          simp only [hkeep] at hrest ⊢
          exact hrest.skip (Or.inl hnil)
        · exact hrest.cons hused hnil hblob

theorem deleteUnusedLayers_deleted (deleteMap : List Bytes) {d : Disk} (h : d.readable = true) :
    Deleted d (deleteUnusedLayers deleteMap d).1 deleteMap := by
  unfold deleteUnusedLayers
  rw [h]
  exact deleteLoop_deleted deleteMap d

/-- The digests that `PruneLayers` reads from the names of the files. -/
def pruned (blobs : List Bytes) : List Bytes := (blobs.map digestOfName).filter fun t => (blobsPath t).isSome

/-- The loop over the directory removes no file that a digest names. -/
theorem pruneLoop_spec (blobs deleteMap : List Bytes) (d : Disk) :
    (pruneLoop blobs deleteMap d).1 = deleteMap ++ pruned blobs ∧
      (pruneLoop blobs deleteMap d).2.manifests = d.manifests ∧
      (pruneLoop blobs deleteMap d).2.readable = d.readable ∧
      (pruneLoop blobs deleteMap d).2.refuses = d.refuses ∧
      ∀ digest file, digest ≠ [] → blobsPath digest = some file →
        (file ∈ (pruneLoop blobs deleteMap d).2.blobs ↔ file ∈ d.blobs) := by
  induction blobs generalizing deleteMap d with
  | nil => simp [pruneLoop, pruned]
  | cons blob blobs ih =>
    unfold pruneLoop
    cases hpath : blobsPath (digestOfName blob) with
    | none =>
      obtain ⟨h1, h2, h3, h4, h5⟩ := ih deleteMap (d.remove blob).1
      obtain ⟨hm, hread, hr⟩ := remove_frame d blob
      refine ⟨by simp [h1, pruned, hpath], h2.trans hm, h3.trans hread, h4.trans hr, ?_⟩
      intro digest file hne hfile
      simp only
      rw [h5 digest file hne hfile, mem_remove]
      refine ⟨fun h => h.1, fun h => ⟨h, ?_⟩⟩
      rintro ⟨rfl, -⟩
      obtain ⟨hdigest, -⟩ := blobsPath_some hne hfile
      obtain ⟨sep, hex, rfl, hsep, hlen, hhex⟩ := isDigest_iff.mp hdigest
      have hname := (blobsPath_of_isDigest hdigest).2.2
      rw [hfile, Option.getD_some] at hname
      have hcolon : isDigest (digestOfName file) = true :=
        isDigest_iff.mpr ⟨ascii ":", hex, by rw [hname]; rcases hsep with rfl | rfl <;> simp [ascii], Or.inl rfl, hlen, hhex⟩
      rw [blobsPath, if_neg fun h => h.2 hcolon] at hpath
      cases hpath
    | some fp =>
      obtain ⟨h1, h2, h3, h4, h5⟩ := ih (deleteMap ++ [digestOfName blob]) d
      exact ⟨by simp [h1, pruned, hpath], h2, h3, h4, h5⟩

theorem pruneLayers_deleted {d : Disk} (h : d.readable = true) : Deleted d (pruneLayers d) (pruned d.blobs) := by
  obtain ⟨h1, h2, h3, h4, h5⟩ := pruneLoop_spec d.blobs [] d
  have hdel := deleteUnusedLayers_deleted (pruneLoop d.blobs [] d).1 (h3.trans h)
  rw [h1, List.nil_append] at hdel
  unfold pruneLayers
  simp only
  rw [h1, List.nil_append]
  have hsame : (pruneLoop d.blobs [] d).2.used = d.used := by rw [Disk.used, h2, Disk.used]
  refine ⟨hdel.manifests.trans h2, hdel.refuses.trans h4, fun digest file hne hfile => ?_⟩
  rw [hdel.blobs digest file hne hfile, h5 digest file hne hfile, h4, hsame]

/-! ## Every call -/

/-- A call that deletes layers. -/
inductive Deletion where
  | removeLayers (m : Manifest)
  | remove (l : Layer)
  | deleteUnusedLayers (deleteMap : List Bytes)
  | pruneLayers

def Deletion.run (d : Disk) : Deletion → Disk
  | .removeLayers m => (Layers.removeLayers m d).1
  | .remove l => (l.remove d).1
  | .deleteUnusedLayers deleteMap => (Layers.deleteUnusedLayers deleteMap d).1
  | .pruneLayers => Layers.pruneLayers d

/-- The digests that a call looks at. `RemoveLayers` stops at one that is invalid, or whose file cannot
be removed. -/
def Deletion.targets (d : Disk) : Deletion → List Bytes
  | .removeLayers m => (m.all.map (·.digest)).takeWhile (passes d)
  | .remove l => [l.digest]
  | .deleteUnusedLayers deleteMap => deleteMap
  | .pruneLayers => pruned d.blobs

theorem Deletion.deleted {d : Disk} (h : d.readable = true) (call : Deletion) :
    Deleted d (call.run d) (call.targets d) := by
  cases call with
  | removeLayers m => exact removeLayers_deleted m h
  | remove l => exact remove_deleted l h
  | deleteUnusedLayers deleteMap => exact deleteUnusedLayers_deleted deleteMap h
  | pruneLayers => exact pruneLayers_deleted h

/-- A file that a remaining manifest needs is still there. -/
def KeepsUsed (d d' : Disk) : Prop :=
  ∀ m ∈ d.manifests, ∀ layer ∈ m.all, ∀ file, layer.digest ≠ [] → blobsPath layer.digest = some file →
    file ∈ d.blobs → file ∈ d'.blobs

theorem keepsUsed_iff_used {d d' : Disk} : KeepsUsed d d' ↔ ∀ digest ∈ d.used, ∀ file, digest ≠ [] →
    blobsPath digest = some file → file ∈ d.blobs → file ∈ d'.blobs := by
  unfold KeepsUsed Disk.used
  constructor
  · intro h digest hmem
    obtain ⟨m, hm, hlayer⟩ := List.mem_flatMap.mp hmem
    obtain ⟨layer, hl, rfl⟩ := List.mem_map.mp hlayer
    exact h m hm layer hl
  · intro h m hm layer hl
    exact h layer.digest (List.mem_flatMap.mpr ⟨m, hm, List.mem_map.mpr ⟨layer, hl, rfl⟩⟩)

/-- Without a list of the manifests nothing that a digest names is deleted. -/
theorem Deletion.unreadable {d : Disk} (h : d.readable = false) (call : Deletion) : KeepsUsed d (call.run d) := by
  intro m hm layer hl file hne hfile hmem
  cases call with
  | removeLayers m => simpa [Deletion.run, Layers.removeLayers, h] using hmem
  | remove l =>
    simp only [Deletion.run, Layer.remove, h]
    split
    · exact hmem
    · exact hmem
  | deleteUnusedLayers deleteMap => simpa [Deletion.run, Layers.deleteUnusedLayers, h] using hmem
  | pruneLayers =>
    obtain ⟨-, -, h3, -, h5⟩ := pruneLoop_spec d.blobs [] d
    unfold Deletion.run Layers.pruneLayers
    simp only [Layers.deleteUnusedLayers, h3, h, Bool.not_false, if_true]
    exact (h5 layer.digest file hne hfile).mpr hmem

/-- A call keeps what is in use exactly if no digest that it looks at is in use in its other spelling
alone, with a file that can be removed. -/
theorem deletion_keeps_iff (d : Disk) (call : Deletion) :
    KeepsUsed d (call.run d) ↔ (d.readable = true → ∀ t ∈ call.targets d, isDigest t = true → t ∉ d.used →
      otherSpelling t ∈ d.used → ∀ file, blobsPath t = some file → file ∈ d.blobs → d.refuses file = true) := by
  cases hread : d.readable with
  | false => exact iff_of_true (call.unreadable hread) fun h => absurd h (by decide)
  | true =>
    have hdel := call.deleted hread
    rw [keepsUsed_iff_used]
    constructor
    · intro hkeep _ t ht hdigest hused hother file hfile hmem
      by_contra hrefuse
      obtain ⟨hsame, -, -⟩ := blobsPath_of_isDigest hdigest
      have hne : otherSpelling t ≠ [] := by
        intro hnil
        have hlen := congrArg List.length hnil
        simp only [otherSpelling, List.length_append, List.length_nil] at hlen
        split at hlen <;> simp [ascii] at hlen
      have hleft := hkeep (otherSpelling t) hother file hne (hsame ▸ hfile) hmem
      rw [hdel.blobs _ file hne (hsame ▸ hfile)] at hleft
      exact hleft.2 ⟨by simpa using hrefuse, t, ht, hused, hfile⟩
    · intro hcond u hu file hne hfile hmem
      rw [hdel.blobs u file hne hfile]
      refine ⟨hmem, ?_⟩
      rintro ⟨hrefuse, t, ht, hused, hpath⟩
      have htne : t ≠ [] := by
        rintro rfl
        have hnil : file = [] := by simpa [blobsPath] using hpath.symm
        exact (blobsPath_some hne hfile).2 hnil
      rcases blobsPath_inj htne hne hpath hfile with rfl | rfl
      · exact hused hu
      · have hyes := hcond rfl t ht (blobsPath_some htne hpath).1 hused hu file hpath hmem
        rw [hrefuse] at hyes
        cases hyes

/-- A model whose manifest spells its only layer with a dash, beside a manifest that is deleted and has
the same layer with a colon. -/
def dashed : Bytes := ascii "sha256-" ++ List.replicate 64 48

def colon : Bytes := ascii "sha256:" ++ List.replicate 64 48

def sharedDisk : Disk := { manifests := [⟨⟨[]⟩, [⟨dashed⟩]⟩], blobs := [dashed] }

theorem sharedDisk_lost : ¬ ∀ (d : Disk) (call : Deletion), KeepsUsed d (call.run d) := by
  intro h
  have hkeep := h sharedDisk (.removeLayers ⟨⟨[]⟩, [⟨colon⟩]⟩) ⟨⟨[]⟩, [⟨dashed⟩]⟩ (List.mem_singleton_self _) ⟨dashed⟩
    (by decide) dashed (by decide) (by decide) (List.mem_singleton_self _)
  exact absurd hkeep (by decide)

end Xdragon.Layers
