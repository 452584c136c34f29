import Xdragon.Registry.Pull
import Xdragon.Lib.Tiling

/-!
# The bytes of a pull

Nothing hashes a layer as a whole. A pull that returns no error has counted as many bytes as its
layers have. When the chunks of each layer do not overlap, it has seen every byte of every layer:
in a file of the right size, in a chunk it had recorded before, or in a chunk it fetched.

A chunk that is being fetched overwrites the file before its hash is known. A byte of a layer is
settled when it is the byte of the blob, or when a chunk of this pull wrote it. The second kind
turns into the first when every chunk of the pull has matched its hash.
-/

namespace Xdragon.Registry

open Xdragon.Lib Xdragon.Blob

/-- The bytes of a range. -/
def Chunk.slice (c : Chunk) (f : Bytes) : Bytes := (f.drop c.start.toNat).take (c.stop + 1 - c.start).toNat

def Chunk.apart (a b : Chunk) : Prop := a.stop + 1 ≤ b.start ∨ b.stop + 1 ≤ a.start

instance (a b : Chunk) : Decidable (a.apart b) := inferInstanceAs (Decidable (_ ∨ _))

variable {δ : Type}

/-! ## When nothing goes wrong -/

/-- The chunk sum is one of a blob with the digest and the size of the layer, which is `blob`. -/
def Chunksum.Honest (sum : Bytes → δ) (blob : δ → Bytes) (l : Layer δ) (cs : Chunksum δ) : Prop :=
  cs.chunk.stop < l.size ∧ sum (blob l.digest) = l.digest ∧ ((blob l.digest).length : Int) = l.size ∧
    sum (cs.chunk.slice (blob l.digest)) = cs.digest

/-- The file has the bytes of the chunk. -/
def Chunksum.Holds (sum : Bytes → δ) (cs : Chunksum δ) : Option Bytes → Prop
  | some f => cs.chunk.stop < f.length ∧ sum (cs.chunk.slice f) = cs.digest
  | none => False

instance [DecidableEq δ] (sum : Bytes → δ) (cs : Chunksum δ) (f : Option Bytes) : Decidable (cs.Holds sum f) := by
  unfold Chunksum.Holds; split <;> infer_instance

/-- No other pull in progress has a layer with the digest. -/
def State.NotShared (s : State δ) (i : Nat) (d : δ) : Prop :=
  ∀ p ∈ s.pulls.eraseIdx i, ∀ l ∈ p.m.all, l.digest ≠ d

/-- What the checks of `Pull` leave open.

* The sizes of the layers are not negative and their sum is an `int64`. An empty layer has the
  digest of the empty blob, and its file can be opened.
* A file with the size of its layer, where it is looked up, has the content of the layer. A file
  that is opened for writing is not longer than the layer.
* The chunk sums of the registry are those of the layer, and do not overlap.
* A file has the chunks that are recorded for it.
* A pull does not write to a layer of another one in progress, and no layer is the key of a chunk. -/
def Careful [DecidableEq δ] (sum : Bytes → δ) (text : δ → Bytes) (threshold : Int) (blob : δ → Bytes) (s : State δ) : Event δ → Prop
  | .pull m => (∀ l ∈ m.all, 0 ≤ l.size) ∧ (m.all.map (·.size)).sum < 2 ^ 63
  | .get i j =>
    match s.layerAt i j with
    | some (_, L) =>
      match s.files L.layer.digest with
      | some f => (f.length : Int) = L.layer.size → f ≠ [] → sum f = L.layer.digest
      | none => True
    | none => True
  | .chunked i j openErr =>
    match s.layerAt i j with
    | some (_, L) =>
      (L.layer.size = 0 → sum [] = L.layer.digest ∧ openErr = false) ∧
      match s.files L.layer.digest with
      | some f => (f.length : Int) ≤ L.layer.size
      | none => True
    | none => True
  | .chunksum i j cs =>
    match s.layerAt i j with
    | some (_, L) =>
      (threshold ≤ L.layer.size → cs.Honest sum blob L.layer ∧ ∀ e ∈ L.entries, e.cs.chunk.apart cs.chunk) ∧
      (found s.files (sum (cacheKey text L.layer.digest cs)) ≠ none → cs.Holds sum (s.files L.layer.digest))
    | none => True
  | .read i j k _ _ =>
    match s.entryAt i j k with
    | some (_, L, _) => s.NotShared i L.layer.digest
    | none => True
  | .record i j k _ =>
    match s.entryAt i j k with
    | some (_, L, e) => ∀ p ∈ s.pulls, ∀ l ∈ p.m.all, l.digest ≠ sum (cacheKey text L.layer.digest e.cs)
    | none => True
  | .finish i _ _ =>
    match s.pulls[i]? with
    | some p => s.NotShared i (sum p.m.data)
    | none => True
  | _ => True

section
variable [DecidableEq δ]

instance (sum : Bytes → δ) (blob : δ → Bytes) (l : Layer δ) (cs : Chunksum δ) : Decidable (cs.Honest sum blob l) := by
  unfold Chunksum.Honest; infer_instance

instance (s : State δ) (i : Nat) (d : δ) : Decidable (s.NotShared i d) := by
  unfold State.NotShared; infer_instance

instance (sum : Bytes → δ) (text : δ → Bytes) (threshold : Int) (blob : δ → Bytes) (s : State δ) (e : Event δ) :
    Decidable (Careful sum text threshold blob s e) := by
  unfold Careful
  repeat' split
  all_goals infer_instance

end

/-! ## The invariant -/

/-- What the fetch of a chunk has written to the file. -/
def Entry.writer (e : Entry δ) : Option (CheckWriter δ) :=
  match e.fetch with
  | .reading w | .recording w | .done w => some w
  | _ => none

/-- The byte that some chunk of the pull wrote at a place of a file. -/
def Pull.Wrote (p : Pull δ) (d : δ) (i : Nat) (b : UInt8) : Prop :=
  ∃ L ∈ p.layers, L.layer.digest = d ∧ ∃ e ∈ L.entries, ∃ w, e.writer = some w ∧
    e.cs.chunk.start.toNat ≤ i ∧ w.h[i - e.cs.chunk.start.toNat]? = some b

def Settled (sum : Bytes → δ) (files : δ → Option Bytes) (W : δ → Nat → UInt8 → Prop) (d : δ) (i : Nat) : Prop :=
  ∃ f b, files d = some f ∧ f[i]? = some b ∧ ((∃ X, sum X = d ∧ X[i]? = some b) ∨ W d i b)

structure WriterSound (sum : Bytes → δ) (cs : Chunksum δ) (w : CheckWriter δ) : Prop where
  err : w.err = none
  size : w.size = cs.chunk.stop + 1 - cs.chunk.start
  digest : w.d = cs.digest
  length : w.h.length = w.n
  le : (w.n : Int) ≤ w.size
  hash : (w.n : Int) = w.size → 0 < w.size → sum w.h = cs.digest

structure EntrySound (sum : Bytes → δ) (files : δ → Option Bytes) (W : δ → Nat → UInt8 → Prop) (l : Layer δ)
    (e : Entry δ) : Prop where
  range : 0 ≤ e.cs.chunk.start ∧ e.cs.chunk.start ≤ e.cs.chunk.stop + 1 ∧ e.cs.chunk.stop < l.size
  honest : e.cs = l.whole ∨ ∃ X, sum X = l.digest ∧ (X.length : Int) = l.size ∧ sum (e.cs.chunk.slice X) = e.cs.digest
  cached : e.fetch = .cached → (∃ c, sum c = e.cs.digest ∧ (c.length : Int) = e.cs.chunk.stop + 1 - e.cs.chunk.start) ∧
    ∀ i : Nat, e.cs.chunk.start ≤ i → (i : Int) ≤ e.cs.chunk.stop → Settled sum files W l.digest i
  written : ∀ w, e.writer = some w → WriterSound sum e.cs w ∧
    ∀ i : Nat, e.cs.chunk.start ≤ i → (i : Int) < e.cs.chunk.start + w.n → Settled sum files W l.digest i

/-- The chunker of the layer is open. -/
def Stage.opened : Stage → Prop
  | .ranging _ | .ranged _ => True
  | _ => False

structure LayerSound (sum : Bytes → δ) (m : Manifest δ) (files : δ → Option Bytes) (W : δ → Nat → UInt8 → Prop)
    (L : LayerState δ) : Prop where
  file : L.stage = .cached ∨ L.stage.opened →
    ∃ f, files L.layer.digest = some f ∧ ∃ l ∈ m.all, l.digest = L.layer.digest ∧ (f.length : Int) ≤ l.size
  cached : L.stage = .cached → (∃ X, sum X = L.layer.digest ∧ (X.length : Int) = L.layer.size) ∧
    ∀ i : Nat, (i : Int) < L.layer.size → Settled sum files W L.layer.digest i
  empty : L.stage.opened → L.layer.size = 0 → sum [] = L.layer.digest
  unopened : L.stage = .unopened → L.layer.size ≠ 0
  unranged : ¬ L.stage.opened → L.entries = []
  entries : ∀ e ∈ L.entries, EntrySound sum files W L.layer e
  apart : L.entries.Pairwise fun a b => a.cs.chunk.apart b.cs.chunk

/-- The bytes that count as received. -/
def Entry.count (e : Entry δ) : Int :=
  match e.fetch with
  | .cached => e.cs.chunk.size
  | .reading w | .recording w | .done w => w.n
  | .failed => 0

def LayerState.count (L : LayerState δ) : Int :=
  if L.stage = .cached then L.layer.size else (L.entries.map (·.count)).sum

structure PullSound (sum : Bytes → δ) (files : δ → Option Bytes) (p : Pull δ) : Prop where
  layers_eq : p.layers.map (·.layer) = p.m.all
  nonneg : ∀ l ∈ p.m.all, 0 ≤ l.size
  total : (p.m.all.map (·.size)).sum < 2 ^ 63
  layers : ∀ L ∈ p.layers, LayerSound sum p.m files p.Wrote L
  completed : p.completed = wrap (p.layers.map (·.count)).sum

/-- A chunk failed. The pull will return an error. -/
def Pull.Failed (p : Pull δ) : Prop := ∃ L ∈ p.layers, ∃ e ∈ L.entries, e.fetch = .failed

/-- Every layer of the manifest is in the cache. -/
def Manifest.Stored (sum : Bytes → δ) (files : δ → Option Bytes) (m : Manifest δ) : Prop :=
  ∀ l ∈ m.all, ∃ f, files l.digest = some f ∧ (f.length : Int) = l.size ∧ sum f = l.digest

/-! ## What a step does to the files -/

/-- Seen from a pull, bytes of its layers change only where it writes itself, and a file does not
grow beyond its layer. -/
def Moved (m : Manifest δ) (W : δ → Nat → UInt8 → Prop) (files files' : δ → Option Bytes) : Prop :=
  ∀ l ∈ m.all, ∀ f, files l.digest = some f → ∃ f', files' l.digest = some f' ∧
    (∀ (i : Nat) b, f[i]? = some b → f'[i]? = some b ∨ ∃ b', f'[i]? = some b' ∧ W l.digest i b') ∧
    (f'.length ≤ f.length ∨ ∃ l' ∈ m.all, l'.digest = l.digest ∧ (f'.length : Int) ≤ l'.size)

/-- The files of the layers are left as they are. -/
theorem Moved.of_eq {m : Manifest δ} {W : δ → Nat → UInt8 → Prop} {files files' : δ → Option Bytes}
    (h : ∀ l ∈ m.all, ∀ f, files l.digest = some f → files' l.digest = some f) : Moved m W files files' :=
  fun l hl f hf => ⟨f, h l hl f hf, fun _ _ hb => .inl hb, .inl (Nat.le_refl _)⟩

section
variable {sum : Bytes → δ} {files files' : δ → Option Bytes} {W W' : δ → Nat → UInt8 → Prop} {m : Manifest δ}
  (hW : ∀ d i b, W d i b → W' d i b) (hmoved : Moved m W' files files')
include hW hmoved

theorem Settled.mono {l : Layer δ} (hl : l ∈ m.all) {i : Nat} (h : Settled sum files W l.digest i) :
    Settled sum files' W' l.digest i := by
  obtain ⟨f, b, hf, hb, hgood⟩ := h
  obtain ⟨f', hf', hbytes, -⟩ := hmoved l hl f hf
  obtain hb' | ⟨b', hb', hw⟩ := hbytes i b hb
  · exact ⟨f', b, hf', hb', hgood.imp_right (hW _ _ _)⟩
  · exact ⟨f', b', hf', hb', .inr hw⟩

theorem EntrySound.mono {l : Layer δ} (hl : l ∈ m.all) {e : Entry δ} (h : EntrySound sum files W l e) :
    EntrySound sum files' W' l e where
  range := h.range
  honest := h.honest
  cached he := ⟨(h.cached he).1, fun i h1 h2 => ((h.cached he).2 i h1 h2).mono hW hmoved hl⟩
  written w hw := ⟨(h.written w hw).1, fun i h1 h2 => ((h.written w hw).2 i h1 h2).mono hW hmoved hl⟩

theorem LayerSound.mono {L : LayerState δ} (hl : L.layer ∈ m.all) (h : LayerSound sum m files W L) :
    LayerSound sum m files' W' L where
  file hs := by
    obtain ⟨f, hf, l, hmem, hd, hle⟩ := h.file hs
    obtain ⟨f', hf', -, hlen⟩ := hmoved L.layer hl f hf
    obtain hlen | hlen := hlen
    · exact ⟨f', hf', l, hmem, hd, by omega⟩
    · exact ⟨f', hf', hlen⟩
  cached hs := ⟨(h.cached hs).1, fun i hi => ((h.cached hs).2 i hi).mono hW hmoved hl⟩
  empty := h.empty
  unopened := h.unopened
  unranged := h.unranged
  entries e he := (h.entries e he).mono hW hmoved hl
  apart := h.apart

end

section
variable {sum : Bytes → δ} {files files' : δ → Option Bytes} {p : Pull δ} {L L' : LayerState δ} {j : Nat} {n : Int}

theorem PullSound.mem_all (h : PullSound sum files p) (hL : L ∈ p.layers) : L.layer ∈ p.m.all := by
  rw [← h.layers_eq]
  exact List.mem_map_of_mem hL

/-- A step of another pull. -/
theorem PullSound.frame (h : PullSound sum files p) (hmoved : Moved p.m p.Wrote files files') :
    PullSound sum files' p :=
  { h with layers := fun L hL => (h.layers L hL).mono (fun _ _ _ => id) hmoved (h.mem_all hL) }

/-- The pull with another state of its layer `j`. -/
def Pull.setLayer (p : Pull δ) (j : Nat) (L : LayerState δ) (n : Int) : Pull δ :=
  { p with layers := p.layers.set j L, completed := wrap (p.completed + n) }

/-- A step of the pull at its layer `j`. -/
theorem PullSound.setLayer (h : PullSound sum files p) (hL : p.layers[j]? = some L) (hlayer : L'.layer = L.layer)
    (hW : ∀ d i b, p.Wrote d i b → (p.setLayer j L' n).Wrote d i b)
    (hmoved : Moved p.m (p.setLayer j L' n).Wrote files files')
    (hsound : LayerSound sum p.m files' (p.setLayer j L' n).Wrote L') (hcount : L'.count = L.count + n) :
    PullSound sum files' (p.setLayer j L' n) := by
  obtain ⟨hj, rfl⟩ := List.getElem?_eq_some_iff.mp hL
  refine ⟨?_, h.nonneg, h.total, ?_, ?_⟩
  · have hset : (p.layers.map (·.layer)).set j L'.layer = p.layers.map (·.layer) := by
      apply List.ext_getElem (by simp)
      intro k hk _
      by_cases hjk : j = k
      · subst hjk
        simpa using hlayer
      · simp [hjk]
    simpa [Pull.setLayer, List.map_set, hset] using h.layers_eq
  · intro K hK
    obtain hK | rfl := List.mem_or_eq_of_mem_set hK
    · exact (h.layers K hK).mono hW hmoved (h.mem_all hK)
    · exact hsound
  · have hsum : ((p.layers.set j L').map (·.count)).sum = (p.layers.map (·.count)).sum + n := by
      rw [List.map_set, List.sum_set']
      simp [hj, hcount]
    simp only [Pull.setLayer, hsum, h.completed, wrap, Int.bmod_add_bmod]

theorem Pull.Failed.setLayer (h : p.Failed) (hL : p.layers[j]? = some L)
    (hkeep : ∀ e ∈ L.entries, e.fetch = .failed → e ∈ L'.entries) : (p.setLayer j L' n).Failed := by
  obtain ⟨K, hK, e, he, hfail⟩ := h
  obtain ⟨k, hk, rfl⟩ := List.mem_iff_getElem.mp hK
  obtain ⟨hj, rfl⟩ := List.getElem?_eq_some_iff.mp hL
  by_cases hjk : j = k
  · subst hjk
    exact ⟨L', List.mem_set hj L', e, hkeep e he hfail, hfail⟩
  · refine ⟨p.layers[k], ?_, e, he, hfail⟩
    apply List.mem_iff_getElem.mpr
    exact ⟨k, by simpa [Pull.setLayer] using hk, by simp [Pull.setLayer, hjk]⟩

/-- What was written stays written when the chunks of the layer go on. -/
theorem Pull.Wrote.setLayer (hL : p.layers[j]? = some L) (hlayer : L'.layer = L.layer)
    (hkeep : ∀ e ∈ L.entries, ∀ w, e.writer = some w → ∃ e' ∈ L'.entries, e'.cs = e.cs ∧ ∃ w', e'.writer = some w' ∧
      w.h <+: w'.h) {d : δ} {i : Nat} {b : UInt8} (h : p.Wrote d i b) : (p.setLayer j L' n).Wrote d i b := by
  obtain ⟨K, hK, hd, e, he, w, hw, hstart, hb⟩ := h
  obtain ⟨k, hk, rfl⟩ := List.mem_iff_getElem.mp hK
  obtain ⟨hj, rfl⟩ := List.getElem?_eq_some_iff.mp hL
  by_cases hjk : j = k
  · subst hjk
    obtain ⟨e', he', hcs, w', hw', t, ht⟩ := hkeep e he w hw
    refine ⟨L', List.mem_set hj L', (congrArg Layer.digest hlayer).trans hd, e', he', w', hw', hcs ▸ hstart, ?_⟩
    rw [hcs, ← ht]
    exact List.getElem?_append_left (List.getElem?_eq_some_iff.mp hb).1 ▸ hb
  · refine ⟨p.layers[k], ?_, hd, e, he, w, hw, hstart, hb⟩
    apply List.mem_iff_getElem.mpr
    exact ⟨k, by simpa [Pull.setLayer] using hk, by simp [Pull.setLayer, hjk]⟩

end

/-! ## One chunk of a layer -/

/-- The layer with another state of its chunk `k`. -/
def LayerState.setFetch (L : LayerState δ) (k : Nat) (e : Entry δ) (f : Fetch δ) : LayerState δ :=
  { L with entries := L.entries.set k { e with fetch := f } }

section
variable {sum : Bytes → δ} {files files' : δ → Option Bytes} {W W' : δ → Nat → UInt8 → Prop} {m : Manifest δ}
  {p : Pull δ} {L : LayerState δ} {e : Entry δ} {f : Fetch δ} {j k : Nat} {n : Int}

theorem LayerState.mem_setFetch (hk : L.entries[k]? = some e) : { e with fetch := f } ∈ (L.setFetch k e f).entries :=
  List.mem_set (List.getElem?_eq_some_iff.mp hk).1 _

/-- The other chunks stay. -/
theorem LayerState.mem_setFetch_of_ne (hk : L.entries[k]? = some e) {e' : Entry δ} (he' : e' ∈ L.entries)
    (hne : e' ≠ e) : e' ∈ (L.setFetch k e f).entries := by
  obtain ⟨k', hk', rfl⟩ := List.mem_iff_getElem.mp he'
  have hkk : k ≠ k' := by
    rintro rfl
    exact hne (List.getElem?_eq_some_iff.mp hk).2
  apply List.mem_iff_getElem.mpr
  exact ⟨k', by simpa [setFetch] using hk', by simp [setFetch, hkk]⟩

theorem LayerState.count_setFetch (hk : L.entries[k]? = some e) (hopened : L.stage.opened)
    (hn : Entry.count { e with fetch := f } = e.count + n) : (L.setFetch k e f).count = L.count + n := by
  obtain ⟨hlt, rfl⟩ := List.getElem?_eq_some_iff.mp hk
  have hstage : L.stage ≠ .cached := by
    intro h
    simp [h, Stage.opened] at hopened
  simp only [count, setFetch, if_neg hstage, List.map_set, hn]
  rw [List.sum_set']
  simp [hlt]

theorem LayerSound.opened_of_mem (h : LayerSound sum m files W L) (he : e ∈ L.entries) : L.stage.opened := by
  by_contra hno
  simp [h.unranged hno] at he

theorem LayerSound.setFetch (h : LayerSound sum m files W L) (hl : L.layer ∈ m.all) (hk : L.entries[k]? = some e)
    (hW : ∀ d i b, W d i b → W' d i b) (hmoved : Moved m W' files files')
    (hsound : EntrySound sum files' W' L.layer { e with fetch := f }) :
    LayerSound sum m files' W' (L.setFetch k e f) := by
  have hopened := h.opened_of_mem (List.mem_of_getElem? hk)
  have h' := h.mono hW hmoved hl
  refine ⟨h'.file, h'.cached, h'.empty, h'.unopened, fun hno => absurd hopened hno, ?_, ?_⟩
  · intro e' he'
    obtain he' | rfl := List.mem_or_eq_of_mem_set he'
    · exact h'.entries e' he'
    · exact hsound
  · have hcs : (L.setFetch k e f).entries.map (·.cs) = L.entries.map (·.cs) := by
      obtain ⟨hlt, rfl⟩ := List.getElem?_eq_some_iff.mp hk
      apply List.ext_getElem (by simp [LayerState.setFetch])
      intro k' _ _
      by_cases hkk : k = k'
      · subst hkk
        simp [LayerState.setFetch]
      · simp [LayerState.setFetch, hkk]
    have hpair := h.apart
    rw [← List.pairwise_map (R := fun a b : Chunksum δ => a.chunk.apart b.chunk) (f := Entry.cs)] at hpair ⊢
    rwa [hcs]

/-- What a chunk wrote stays when it goes on. -/
theorem Pull.Wrote.setFetch (hL : p.layers[j]? = some L) (hk : L.entries[k]? = some e)
    (hkeep : ∀ w, e.writer = some w → ∃ w', Entry.writer { e with fetch := f } = some w' ∧ w.h <+: w'.h)
    {d : δ} {i : Nat} {b : UInt8} (h : p.Wrote d i b) : (p.setLayer j (L.setFetch k e f) n).Wrote d i b := by
  apply h.setLayer hL (show (L.setFetch k e f).layer = L.layer from rfl)
  intro e' he' w hw
  by_cases hne : e' = e
  · subst hne
    obtain ⟨w', hw', hpre⟩ := hkeep w hw
    exact ⟨_, LayerState.mem_setFetch hk, rfl, w', hw', hpre⟩
  · exact ⟨e', LayerState.mem_setFetch_of_ne hk he' hne, rfl, w, hw, List.prefix_rfl⟩

theorem PullSound.setFetch (h : PullSound sum files p) (hL : p.layers[j]? = some L) (hk : L.entries[k]? = some e)
    (hkeep : ∀ w, e.writer = some w → ∃ w', Entry.writer { e with fetch := f } = some w' ∧ w.h <+: w'.h)
    (hmoved : Moved p.m (p.setLayer j (L.setFetch k e f) n).Wrote files files')
    (hsound : EntrySound sum files' (p.setLayer j (L.setFetch k e f) n).Wrote L.layer { e with fetch := f })
    (hn : Entry.count { e with fetch := f } = e.count + n) :
    PullSound sum files' (p.setLayer j (L.setFetch k e f) n) := by
  have hmem := List.mem_of_getElem? hL
  have hW : ∀ d i b, p.Wrote d i b → (p.setLayer j (L.setFetch k e f) n).Wrote d i b :=
    fun d i b hw => hw.setFetch hL hk hkeep
  apply h.setLayer hL (show (L.setFetch k e f).layer = L.layer from rfl) hW hmoved
  · exact (h.layers L hmem).setFetch (h.mem_all hmem) hk hW hmoved hsound
  · exact LayerState.count_setFetch hk ((h.layers L hmem).opened_of_mem (List.mem_of_getElem? hk)) hn

theorem Pull.Failed.setFetch (h : p.Failed) (hL : p.layers[j]? = some L) (hk : L.entries[k]? = some e)
    (he : e.fetch ≠ .failed) : (p.setLayer j (L.setFetch k e f) n).Failed := by
  apply h.setLayer hL
  intro e' he' hfail
  apply LayerState.mem_setFetch_of_ne hk he'
  rintro rfl
  exact he hfail

theorem Pull.failed_setFetch (hL : p.layers[j]? = some L) (hk : L.entries[k]? = some e) :
    (p.setLayer j (L.setFetch k e .failed) n).Failed :=
  ⟨_, List.mem_set (List.getElem?_eq_some_iff.mp hL).1 _, _, LayerState.mem_setFetch hk, rfl⟩

end

/-! ## A new chunk -/

/-- A range inside of a layer of a size that fits an `int64`. -/
theorem Chunk.size_eq {c : Chunk} {n : Int} (h0 : 0 ≤ c.start) (h1 : c.start ≤ c.stop + 1) (h2 : c.stop < n) (hn : n < 2 ^ 63) :
    c.size = c.stop + 1 - c.start := by
  unfold Chunk.size wrap
  rw [Int.bmod_eq_of_le] <;> omega

theorem Chunk.getElem?_slice {c : Chunk} {f : Bytes} {a : Nat} (h0 : 0 ≤ c.start) (h1 : c.start ≤ a) (h2 : (a : Int) ≤ c.stop) :
    (c.slice f)[a - c.start.toNat]? = f[a]? := by
  unfold Chunk.slice
  rw [List.getElem?_take_of_lt (by omega), List.getElem?_drop]
  congr 1
  omega

theorem Chunk.length_slice {c : Chunk} {f : Bytes} (h0 : 0 ≤ c.start) (h2 : c.stop < f.length) :
    (c.slice f).length = (c.stop + 1 - c.start).toNat := by
  simp [Chunk.slice]
  omega

section
variable {sum : Bytes → δ} {files : δ → Option Bytes} {W : δ → Nat → UInt8 → Prop} {l : Layer δ} {cs : Chunksum δ}

theorem PullSound.size_lt {p : Pull δ} (h : PullSound sum files p) {l : Layer δ} (hl : l ∈ p.m.all) :
    l.size < 2 ^ 63 := by
  have hsum := List.single_le_sum (l := p.m.all.map (·.size)) (by simpa using h.nonneg) l.size
    (List.mem_map_of_mem hl)
  have := h.total
  omega

theorem EntrySound.cachedEntry (hinj : Function.Injective sum)
    (hrange : 0 ≤ cs.chunk.start ∧ cs.chunk.start ≤ cs.chunk.stop + 1 ∧ cs.chunk.stop < l.size)
    (hhonest : cs = l.whole ∨ ∃ X, sum X = l.digest ∧ (X.length : Int) = l.size ∧ sum (cs.chunk.slice X) = cs.digest)
    (hholds : cs.Holds sum (files l.digest)) : EntrySound sum files W l ⟨cs, .cached⟩ where
  range := hrange
  honest := hhonest
  cached _ := by
    obtain ⟨h0, h1, h2⟩ := hrange
    unfold Chunksum.Holds at hholds
    split at hholds
    · rename_i f hf
      obtain ⟨hstop, hsum⟩ := hholds
      have hlen := Chunk.length_slice h0 hstop
      refine ⟨⟨_, hsum, by simp only; omega⟩, fun a ha hb => ?_⟩
      have hlt : a < f.length := by
        simp only at hb
        omega
      refine ⟨f, f[a], hf, by simp, .inl ?_⟩
      -- the bytes of the chunk are those of the blob, since their hashes are the same
      obtain hwhole | ⟨X, hX, -, hXsum⟩ := hhonest
      · refine ⟨cs.chunk.slice f, by rw [hsum, hwhole]; rfl, ?_⟩
        have hget := Chunk.getElem?_slice (f := f) h0 ha hb
        have hstart : cs.chunk.start.toNat = 0 := by simp [hwhole, Layer.whole]
        rw [hstart] at hget
        rw [← List.getElem?_eq_getElem hlt]
        simpa using hget
      · refine ⟨X, hX, ?_⟩
        have hslice : cs.chunk.slice X = cs.chunk.slice f := hinj (hXsum.trans hsum.symm)
        rw [← Chunk.getElem?_slice h0 ha hb, hslice, Chunk.getElem?_slice h0 ha hb]
        simp
    · exact hholds.elim
  written w hw := by simp [Entry.writer] at hw

theorem EntrySound.newEntry
    (hrange : 0 ≤ cs.chunk.start ∧ cs.chunk.start ≤ cs.chunk.stop + 1 ∧ cs.chunk.stop < l.size) (hsize : l.size < 2 ^ 63)
    (hhonest : cs = l.whole ∨ ∃ X, sum X = l.digest ∧ (X.length : Int) = l.size ∧ sum (cs.chunk.slice X) = cs.digest) :
    EntrySound sum files W l ⟨cs, .reading ⟨cs.chunk.size, cs.digest, [], 0, none⟩⟩ where
  range := hrange
  honest := hhonest
  cached hc := by simp at hc
  written w hw := by
    obtain rfl : ⟨cs.chunk.size, cs.digest, [], 0, none⟩ = w := by simpa [Entry.writer] using hw
    have hcs := Chunk.size_eq hrange.1 hrange.2.1 hrange.2.2 hsize
    refine ⟨⟨rfl, hcs, rfl, rfl, ?_, fun h1 h2 => ?_⟩, fun a h1 h2 => ?_⟩
    · simp only [hcs]
      omega
    · simp only at h1 h2
      omega
    · simp only at h1 h2
      omega

end

end Xdragon.Registry
