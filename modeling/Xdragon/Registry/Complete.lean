import Xdragon.Registry.Settled

/-!
# What a pull leaves in the cache

The steps of the pulls keep the invariant, and a pull that returns no error leaves its layers
complete.
-/

namespace Xdragon.Registry

open Xdragon.Lib Xdragon.Blob

variable {δ : Type}

/-! ## The invariant over the pulls -/

structure Inv (sum : Bytes → δ) (s : State δ) : Prop where
  pulls : ∀ p ∈ s.pulls, p.Failed ∨ PullSound sum s.files p
  returned : ∀ m, s.returned = some (m, none) → m.Stored sum s.files

theorem mem_set_cases {α : Type} {l : List α} {i : Nat} {a x : α} (h : x ∈ l.set i a) : x = a ∨ x ∈ l.eraseIdx i := by
  rw [List.set_eq_take_append_cons_drop] at h
  split_ifs at h with hi
  · rw [List.eraseIdx_eq_take_drop_succ, List.mem_append]
    rw [List.mem_append, List.mem_cons] at h
    tauto
  · rw [List.eraseIdx_of_length_le (by omega)]
    exact .inr h

section
variable {sum : Bytes → δ} {s : State δ} {files : δ → Option Bytes} {p : Pull δ} {L L' : LayerState δ} {e : Entry δ}
  {w : CheckWriter δ} {i j k : Nat} {n : Int}

/-- A step of pull `i` at its layer `j`. -/
theorem Inv.setLayer (h : Inv sum s) (hp : s.pulls[i]? = some p) (hfailed : p.Failed → (p.setLayer j L' n).Failed)
    (hothers : ∀ q ∈ s.pulls.eraseIdx i, Moved q.m q.Wrote s.files files)
    (hsound : PullSound sum s.files p → (p.setLayer j L' n).Failed ∨ PullSound sum files (p.setLayer j L' n)) :
    Inv sum ({ s with files }.setLayer i j p L' n) := by
  refine ⟨?_, by simp [State.setLayer]⟩
  intro q hq
  obtain rfl | hq := mem_set_cases hq
  · obtain hf | hs := h.pulls p (List.mem_of_getElem? hp)
    · exact .inl (hfailed hf)
    · exact hsound hs
  · exact (h.pulls q (List.mem_of_mem_eraseIdx hq)).imp_right fun hs => hs.frame (hothers q hq)

theorem Inv.setFailed (h : Inv sum s) (hp : s.pulls[i]? = some p) (hL : p.layers[j]? = some L)
    (hk : L.entries[k]? = some e) (hothers : ∀ q ∈ s.pulls.eraseIdx i, Moved q.m q.Wrote s.files files) :
    Inv sum ({ s with files }.setFetch i j k p L e .failed n) :=
  h.setLayer hp (fun _ => Pull.failed_setFetch hL hk) hothers (fun _ => .inl (Pull.failed_setFetch hL hk))

/-- A step of a chunk that writes nothing to the layers. -/
theorem Inv.setWriter (h : Inv sum s) (hp : s.pulls[i]? = some p) (hL : p.layers[j]? = some L)
    (hk : L.entries[k]? = some e) (hw : e.writer = some w) {f : Fetch δ}
    (hf : Entry.writer { e with fetch := f } = some w) (hfiles : ∀ q ∈ s.pulls, ∀ l ∈ q.m.all, files l.digest = s.files l.digest) :
    Inv sum ({ s with files }.setFetch i j k p L e f 0) := by
  have he : e.fetch ≠ .failed := by
    intro hfail
    simp [Entry.writer, hfail] at hw
  have hmoved : ∀ W, ∀ q ∈ s.pulls, Moved q.m W s.files files :=
    fun W q hq => Moved.of_eq fun l hl g hg => (hfiles q hq l hl).trans hg
  have hpmem := List.mem_of_getElem? hp
  apply h.setLayer hp (fun hfail => hfail.setFetch hL hk he)
    (fun q hq => hmoved _ q (List.mem_of_mem_eraseIdx hq))
  intro hs
  have hkeep : ∀ w', e.writer = some w' → ∃ w'', Entry.writer { e with fetch := f } = some w'' ∧ w'.h <+: w''.h := by
    intro w' hw'
    obtain rfl : w = w' := by simpa [hw] using hw'
    exact ⟨w, hf, List.prefix_rfl⟩
  have hLmem := List.mem_of_getElem? hL
  have hesound := (hs.layers L hLmem).entries e (List.mem_of_getElem? hk)
  have hsettled := (hesound.mono (fun _ _ _ hw => hw.setFetch (n := 0) hL hk hkeep) (hmoved _ p hpmem)
    (hs.mem_all hLmem)).written w hw
  refine .inr (hs.setFetch hL hk hkeep (hmoved _ p hpmem) ⟨hesound.range, hesound.honest, ?_, ?_⟩ ?_)
  · intro hc
    simp only at hc
    simp [Entry.writer, hc] at hf
  · intro w' hw'
    obtain rfl : w = w' := by simpa [hf] using hw'
    exact hsettled
  · have hcount : ∀ e' : Entry δ, e'.writer = some w → e'.count = w.n := by
      intro e' hw'
      unfold Entry.writer at hw'
      unfold Entry.count
      split at hw' <;> simp_all
    rw [hcount e hw, hcount _ hf, Int.add_zero]

/-! ### Looking a layer up -/

theorem State.layerAt_eq (h : s.layerAt i j = some (p, L)) : s.pulls[i]? = some p ∧ p.layers[j]? = some L := by
  simp only [State.layerAt, Option.bind_eq_bind, Option.bind_eq_some_iff] at h
  obtain ⟨p', hp, L', hL, h⟩ := h
  split_ifs at h
  obtain ⟨rfl, rfl⟩ : p' = p ∧ L' = L := by simpa using h
  exact ⟨hp, hL⟩

theorem State.entryAt_eq (h : s.entryAt i j k = some (p, L, e)) :
    s.pulls[i]? = some p ∧ p.layers[j]? = some L ∧ L.entries[k]? = some e := by
  simp only [State.entryAt, Option.bind_eq_bind, Option.bind_eq_some_iff] at h
  obtain ⟨p', hp, L', hL, e', he, h⟩ := h
  obtain ⟨rfl, rfl, rfl⟩ : p' = p ∧ L' = L ∧ e' = e := by simpa using h
  exact ⟨hp, hL, he⟩

theorem Moved.refl (m : Manifest δ) (W : δ → Nat → UInt8 → Prop) (files : δ → Option Bytes) : Moved m W files files :=
  Moved.of_eq fun _ _ _ h => h

/-- A step at a layer that keeps its chunks. -/
theorem Inv.grow (h : Inv sum s) (hp : s.pulls[i]? = some p) (hL : p.layers[j]? = some L)
    (hmoved : ∀ q ∈ s.pulls, Moved q.m q.Wrote s.files files) (hlayer : L'.layer = L.layer)
    (hkeep : ∀ e ∈ L.entries, e ∈ L'.entries)
    (hsound : ∀ W, L.layer ∈ p.m.all → PullSound sum s.files p → LayerSound sum p.m files W L → LayerSound sum p.m files W L')
    (hcount : LayerSound sum p.m s.files p.Wrote L → PullSound sum s.files p → L'.count = L.count + n) :
    Inv sum ({ s with files }.setLayer i j p L' n) := by
  have hW : ∀ d i b, p.Wrote d i b → (p.setLayer j L' n).Wrote d i b := by
    intro d i b hw
    apply hw.setLayer hL hlayer
    exact fun e he w hw => ⟨e, hkeep e he, rfl, w, hw, List.prefix_rfl⟩
  refine h.setLayer hp ?_ (fun q hq => hmoved q (List.mem_of_mem_eraseIdx hq)) ?_
  · intro hf
    exact hf.setLayer hL fun e he _ => hkeep e he
  · intro hs
    have hLmem := List.mem_of_getElem? hL
    have hmoved' : Moved p.m (p.setLayer j L' n).Wrote s.files files := by
      intro l hl f hf
      obtain ⟨f', hf', hb, hlen⟩ := hmoved p (List.mem_of_getElem? hp) l hl f hf
      refine ⟨f', hf', fun i b hi => (hb i b hi).imp_right ?_, hlen⟩
      exact fun ⟨b', hb', hw⟩ => ⟨b', hb', hW _ _ _ hw⟩
    have hLsound := hs.layers L hLmem
    exact .inr (hs.setLayer hL hlayer hW hmoved'
      (hsound _ (hs.mem_all hLmem) hs (hLsound.mono hW hmoved' (hs.mem_all hLmem))) (hcount hLsound hs))

/-- A stage before the file of the layer is opened. -/
theorem LayerSound.unopenedStage {m : Manifest δ} {W : δ → Nat → UInt8 → Prop} (hentries : L.entries = [])
    {stage : Stage} (h1 : stage ≠ .cached) (h2 : ¬ stage.opened) (h3 : stage = .unopened → L.layer.size ≠ 0) :
    LayerSound sum m files W { L with stage } where
  file hs := by
    obtain hs | hs := hs
    · exact absurd hs h1
    · exact absurd hs h2
  cached hs := absurd hs h1
  empty hs := absurd hs h2
  unopened hs := h3 hs
  unranged _ := hentries
  entries := by simp [hentries]
  apart := by simp [hentries]

/-- A stage in which the file of the layer is open. -/
theorem LayerSound.openedStage {m : Manifest δ} {W : δ → Nat → UInt8 → Prop} (hentries : L.entries = [])
    {stage : Stage} (h1 : stage.opened)
    (hfile : ∃ f, files L.layer.digest = some f ∧ ∃ l ∈ m.all, l.digest = L.layer.digest ∧ (f.length : Int) ≤ l.size)
    (hempty : L.layer.size = 0 → sum [] = L.layer.digest) : LayerSound sum m files W { L with stage } where
  file _ := hfile
  cached hs := by
    have hs : stage = .cached := hs
    simp [hs, Stage.opened] at h1
  empty _ := hempty
  unopened hs := by
    have hs : stage = .unopened := hs
    simp [hs, Stage.opened] at h1
  unranged hno := absurd h1 hno
  entries := by simp [hentries]
  apart := by simp [hentries]

/-- A file of the size of its layer is taken over as it is. -/
theorem LayerSound.cachedStage {m : Manifest δ} {W : δ → Nat → UInt8 → Prop} (hl : L.layer ∈ m.all)
    (hentries : L.entries = []) {f : Bytes} (hf : files L.layer.digest = some f) (hlen : (f.length : Int) = L.layer.size)
    (hsum : sum f = L.layer.digest) : LayerSound sum m files W { L with stage := .cached } where
  file _ := ⟨f, hf, L.layer, hl, rfl, hlen.le⟩
  cached _ := by
    refine ⟨⟨f, hsum, hlen⟩, fun i hi => ?_⟩
    have hi' : i < f.length := by
      simp only at hi
      omega
    exact ⟨f, f[i], hf, by simp, .inl ⟨f, hsum, by simp⟩⟩
  empty hs := by simp [Stage.opened] at hs
  unopened hs := by simp at hs
  unranged _ := hentries
  entries := by simp [hentries]
  apart := by simp [hentries]

theorem Inv.rangeEnd (h : Inv sum s) (hat : s.layerAt i j = some (p, L)) {v : Bool} (hstage : L.stage = .ranging v) :
    Inv sum (s.setLayer i j p { L with stage := .ranged v } 0) := by
  obtain ⟨hp, hL⟩ := State.layerAt_eq hat
  have hopened : L.stage.opened := by simp [hstage, Stage.opened]
  refine h.grow hp hL (fun q _ => Moved.refl q.m q.Wrote s.files) rfl (fun _ => id) (fun W _ _ hs => ?_) (fun hs _ => ?_)
  · exact ⟨fun _ => hs.file (.inr hopened), by simp, fun _ => hs.empty hopened, by simp, by simp [Stage.opened],
      hs.entries, hs.apart⟩
  · simp [LayerState.count, hstage]

theorem Inv.bodyEnd (h : Inv sum s) (hat : s.entryAt i j k = some (p, L, e)) (hfetch : e.fetch = .reading w)
    (validated : Bool) : Inv sum (s.bodyEnd i j k p L e w validated) := by
  obtain ⟨hp, hL, hk⟩ := State.entryAt_eq hat
  unfold State.bodyEnd
  split_ifs
  · exact h.setFailed hp hL hk fun q _ => Moved.refl q.m q.Wrote s.files
  · exact h.setWriter hp hL hk (by simp [Entry.writer, hfetch]) rfl fun _ _ _ _ => rfl

end

section
variable [DecidableEq δ] {sum : Bytes → δ} {text : δ → Bytes} {threshold : Int} {blob : δ → Bytes} {s : State δ}
  {p : Pull δ} {L : LayerState δ} {e : Entry δ} {w : CheckWriter δ} {i j k : Nat}

theorem Inv.get (h : Inv sum s) (hok : Careful sum text threshold blob s (.get i j)) (hat : s.layerAt i j = some (p, L))
    (hstage : L.stage = .waiting) : Inv sum (s.get i j p L) := by
  obtain ⟨hp, hL⟩ := State.layerAt_eq hat
  simp only [Careful, hat] at hok
  have hmoved : ∀ q ∈ s.pulls, Moved q.m q.Wrote s.files s.files := fun q _ => Moved.refl q.m q.Wrote s.files
  have hnone : ∀ W, LayerSound sum p.m s.files W L → L.entries = [] :=
    fun W hs => hs.unranged (by simp [hstage, Stage.opened])
  have hmissing : Inv sum (s.setLayer i j p { L with stage := .missing } 0) := by
    refine h.grow hp hL hmoved rfl (fun _ => id) (fun W _ _ hs => ?_) (fun hs _ => ?_)
    · exact LayerSound.unopenedStage (hnone W hs) (by simp) (by simp [Stage.opened]) (by simp)
    · simp [LayerState.count, hstage]
  unfold State.get
  split
  · rename_i f hfound
    split_ifs with hlen
    · obtain ⟨hf, hne⟩ : s.files L.layer.digest = some f ∧ f ≠ [] := by
        simp only [found, Option.bind_eq_some_iff] at hfound
        obtain ⟨g, hg, hfound⟩ := hfound
        split_ifs at hfound with hnil
        obtain rfl := Option.some.inj hfound
        exact ⟨hg, hnil⟩
      simp only [hf] at hok
      refine h.grow hp hL hmoved rfl (fun _ => id) (fun W hl _ hs => ?_) (fun hs _ => ?_)
      · exact LayerSound.cachedStage hl (hnone W hs) hf hlen (hok hlen hne)
      · simp [LayerState.count, hstage, hnone _ hs]
    · exact hmissing
  · exact hmissing

theorem Inv.chunked (h : Inv sum s) {openErr : Bool} (hok : Careful sum text threshold blob s (.chunked i j openErr))
    (hat : s.layerAt i j = some (p, L)) (hstage : L.stage = .missing) : Inv sum (s.chunked i j p L openErr) := by
  obtain ⟨hp, hL⟩ := State.layerAt_eq hat
  simp only [Careful, hat] at hok
  obtain ⟨hempty, hfits⟩ := hok
  have hmoved : ∀ q ∈ s.pulls, Moved q.m q.Wrote s.files s.files := fun q _ => Moved.refl q.m q.Wrote s.files
  have hnone : ∀ {files} W, LayerSound sum p.m files W L → L.entries = [] :=
    fun W hs => hs.unranged (by simp [hstage, Stage.opened])
  have hunopened : openErr = true → Inv sum (s.setLayer i j p { L with stage := .unopened } 0) := by
    intro herr
    refine h.grow hp hL hmoved rfl (fun _ => id) (fun W _ _ hs => ?_) (fun hs _ => ?_)
    · refine LayerSound.unopenedStage (hnone W hs) (by simp) (by simp [Stage.opened]) (fun _ hzero => ?_)
      simp [(hempty hzero).2] at herr
    · simp [LayerState.count, hstage]
  unfold State.chunked
  split
  · rename_i f hf
    simp only [hf] at hfits
    have hranging : ∀ v, Inv sum (s.setLayer i j p { L with stage := .ranging v } 0) := by
      intro v
      refine h.grow hp hL hmoved rfl (fun _ => id) (fun W hl _ hs => ?_) (fun hs _ => ?_)
      · exact LayerSound.openedStage (hnone W hs) (by simp [Stage.opened]) ⟨f, hf, L.layer, hl, rfl, hfits⟩
          (fun hz => (hempty hz).1)
      · simp [LayerState.count, hstage]
    split_ifs with hlen herr
    · exact hranging true
    · exact hunopened herr
    · exact hranging false
  · rename_i hf
    split_ifs with herr
    · exact hunopened herr
    · refine h.grow hp hL ?_ rfl (fun _ => id) (fun W hl hpull hs => ?_) (fun hs _ => ?_)
      · refine fun q _ => Moved.of_eq fun l _ g hg => ?_
        have hne : l.digest ≠ L.layer.digest := by
          intro heq
          simp [heq, hf] at hg
        simpa [hne] using hg
      · exact LayerSound.openedStage (hnone W hs) (by simp [Stage.opened])
          ⟨[], by simp, L.layer, hl, rfl, by simpa using hpull.nonneg _ hl⟩ (fun hz => (hempty hz).1)
      · simp [LayerState.count, hstage]

/-! ### The chunk sums -/

theorem Inv.chunksum (hinj : Function.Injective sum) (h : Inv sum s) {cs : Chunksum δ}
    (hok : Careful sum text threshold blob s (.chunksum i j cs)) (hat : s.layerAt i j = some (p, L))
    {v : Bool} (hstage : L.stage = .ranging v) (hyields : L.yields threshold cs = true) :
    Inv sum (s.chunksum sum text i j p L cs) := by
  obtain ⟨hp, hL⟩ := State.layerAt_eq hat
  simp only [Careful, hat] at hok
  obtain ⟨hlist, hkey⟩ := hok
  have hmoved : ∀ q ∈ s.pulls, Moved q.m q.Wrote s.files s.files := fun q _ => Moved.refl q.m q.Wrote s.files
  have hrange : 0 ≤ L.layer.size →
      0 ≤ cs.chunk.start ∧ cs.chunk.start ≤ cs.chunk.stop + 1 ∧ cs.chunk.stop < L.layer.size := by
    intro hnonneg
    unfold LayerState.yields at hyields
    split_ifs at hyields with hsmall
    · obtain ⟨rfl, -⟩ := of_decide_eq_true hyields
      simp [Layer.whole, hnonneg]
    · obtain ⟨h0, h1⟩ := of_decide_eq_true hyields
      exact ⟨h0, by omega, (hlist (by omega)).1.1⟩
  have hhonest : cs = L.layer.whole ∨
      ∃ X, sum X = L.layer.digest ∧ (X.length : Int) = L.layer.size ∧ sum (cs.chunk.slice X) = cs.digest := by
    unfold LayerState.yields at hyields
    split_ifs at hyields with hsmall
    · exact .inl (of_decide_eq_true hyields).1
    · obtain ⟨-, hX⟩ := (hlist (by omega)).1
      exact .inr ⟨_, hX⟩
  have hapart : ∀ e ∈ L.entries, e.cs.chunk.apart cs.chunk := by
    intro e he
    unfold LayerState.yields at hyields
    split_ifs at hyields with hsmall
    · simp [(of_decide_eq_true hyields).2] at he
    · exact (hlist (by omega)).2 e he
  have hgrow : ∀ (f : Fetch δ) n, (∀ W, PullSound sum s.files p → EntrySound sum s.files W L.layer ⟨cs, f⟩) →
      (PullSound sum s.files p → Entry.count ⟨cs, f⟩ = n) →
      Inv sum (s.setLayer i j p { L with entries := L.entries ++ [⟨cs, f⟩] } n) := by
    intro f n hf hn
    refine h.grow hp hL hmoved rfl (fun e he => List.mem_append_left _ he) (fun W hl hpull hs => ?_) (fun hs hpull => ?_)
    · refine ⟨hs.file, hs.cached, hs.empty, hs.unopened, ?_, ?_, ?_⟩
      · intro hno
        exact absurd (by simp [hstage, Stage.opened]) hno
      · intro e he
        obtain he | he := List.mem_append.mp he
        · exact hs.entries e he
        · obtain rfl := List.mem_singleton.mp he
          exact hf W hpull
      · rw [List.pairwise_append]
        refine ⟨hs.apart, by simp, fun a ha b hb => ?_⟩
        obtain rfl := List.mem_singleton.mp hb
        exact hapart a ha
    · simp [LayerState.count, hstage, hn hpull]
  have hlayer : PullSound sum s.files p → L.layer ∈ p.m.all := fun hpull => hpull.mem_all (List.mem_of_getElem? hL)
  unfold State.chunksum
  split
  · rename_i g hg
    apply hgrow
    · intro W hpull
      have hl := hlayer hpull
      exact EntrySound.cachedEntry hinj (hrange (hpull.nonneg _ hl)) hhonest (hkey (by simp [hg]))
    · exact fun _ => rfl
  · apply hgrow
    · intro W hpull
      have hl := hlayer hpull
      exact EntrySound.newEntry (hrange (hpull.nonneg _ hl)) (hpull.size_lt hl) hhonest
    · exact fun _ => rfl

/-! ### The bodies -/

/-- A piece of a body that the writer admits goes to the file. -/
theorem PullSound.read (h : PullSound sum s.files p) (hL : p.layers[j]? = some L) (hk : L.entries[k]? = some e)
    (hfetch : e.fetch = .reading w) {b : Bytes} (hv : w.verify sum b = .ok ()) :
    PullSound sum (Function.update s.files L.layer.digest
        ((s.files L.layer.digest).map (writeAt · (e.cs.chunk.start.toNat + w.n) b)))
      (p.setLayer j (L.setFetch k e (.reading (w.wrote b b.length))) b.length) := by
  have hLmem := List.mem_of_getElem? hL
  have hLs := h.layers L hLmem
  have hes := hLs.entries e (List.mem_of_getElem? hk)
  have hw : e.writer = some w := by simp [Entry.writer, hfetch]
  obtain ⟨hws, hold⟩ := hes.written w hw
  obtain ⟨f, hf, -⟩ := hLs.file (.inr (hLs.opened_of_mem (List.mem_of_getElem? hk)))
  obtain ⟨-, hle, hhash⟩ := CheckWriter.verify_ok hv
  obtain ⟨h0, h1, h2⟩ := hes.range
  have hsize := hws.size
  set off := e.cs.chunk.start.toNat + w.n with hoff
  set p' := p.setLayer j (L.setFetch k e (.reading (w.wrote b b.length))) b.length with hp'
  have hwrote : ∀ a, off ≤ a → a < off + b.length → ∃ c, (writeAt f off b)[a]? = some c ∧ p'.Wrote L.layer.digest a c := by
    intro a ha hb
    have hidx : a - off < b.length := by omega
    refine ⟨b[a - off], by rw [getElem?_writeAt_mem ha hb]; simp, ?_⟩
    refine ⟨_, List.mem_set (List.getElem?_eq_some_iff.mp hL).1 _, rfl, _, LayerState.mem_setFetch hk,
      w.wrote b b.length, rfl, by simp only; omega, ?_⟩
    simp only [CheckWriter.wrote]
    rw [List.getElem?_append_right (by rw [hws.length]; omega), hws.length, ← List.getElem?_eq_getElem hidx]
    congr 1
    omega
  have hmoved : Moved p.m p'.Wrote s.files
      (Function.update s.files L.layer.digest ((s.files L.layer.digest).map (writeAt · off b))) := by
    intro l hl g hg
    by_cases hd : l.digest = L.layer.digest
    · obtain rfl : f = g := by simpa [hd, hf] using hg
      refine ⟨writeAt f off b, by simp [hd, hf], fun a c hc => ?_, ?_⟩
      · by_cases hin : off ≤ a ∧ a < off + b.length
        · exact .inr (hd ▸ hwrote a hin.1 hin.2)
        · left
          rw [getElem?_writeAt_not_mem (List.getElem?_eq_some_iff.mp hc).1 (by omega), hc]
      · by_cases hb : b = []
        · simp [hb]
        · rw [length_writeAt hb]
          by_cases hmax : off + b.length ≤ f.length
          · left
            omega
          · exact .inr ⟨L.layer, h.mem_all hLmem, hd.symm, by omega⟩
    · exact ⟨g, by simpa [hd] using hg, fun _ _ hc => .inl hc, .inl (Nat.le_refl _)⟩
  have hkeep : ∀ w', e.writer = some w' → ∃ w'', Entry.writer { e with fetch := .reading (w.wrote b b.length) } = some w'' ∧
      w'.h <+: w''.h := by
    intro w' hw'
    obtain rfl : w = w' := by simpa [hw] using hw'
    exact ⟨_, rfl, List.prefix_append _ _⟩
  refine h.setFetch hL hk hkeep hmoved ⟨hes.range, hes.honest, by simp, ?_⟩ ?_
  · intro w' hw'
    obtain rfl : w.wrote b b.length = w' := by simpa [Entry.writer] using hw'
    refine ⟨⟨by simp [CheckWriter.wrote], hsize, hws.digest, ?_, ?_, ?_⟩, ?_⟩
    · simp [CheckWriter.wrote, hws.length]
    · simpa [CheckWriter.wrote] using hle
    · intro heq _
      rw [← hws.digest]
      exact hhash (by simpa [CheckWriter.wrote] using heq)
    · intro a ha hb
      simp only [CheckWriter.wrote] at ha hb
      by_cases hlt : (a : Int) < e.cs.chunk.start + w.n
      · exact (hold a ha hlt).mono (fun _ _ _ hw => hw.setFetch hL hk hkeep) hmoved (h.mem_all hLmem)
      · obtain ⟨c, hc, hwr⟩ := hwrote a (by omega) (by omega)
        exact ⟨writeAt f off b, c, by simp [hf], hc, .inr hwr⟩
  · simp [Entry.count, hfetch, CheckWriter.wrote]

theorem Inv.read (h : Inv sum s) {b : Bytes} {taken : Nat} (hok : Careful sum text threshold blob s (.read i j k b taken))
    (hat : s.entryAt i j k = some (p, L, e)) (hfetch : e.fetch = .reading w) (htaken : taken ≤ b.length) :
    Inv sum (s.read sum i j k p L e w b taken) := by
  obtain ⟨hp, hL, hk⟩ := State.entryAt_eq hat
  simp only [Careful, hat] at hok
  unfold State.read
  split
  · exact h.setFailed hp hL hk fun q _ => Moved.refl q.m q.Wrote s.files
  · rename_i hv
    have hothers : ∀ x, ∀ q ∈ s.pulls.eraseIdx i, Moved q.m q.Wrote s.files (Function.update s.files L.layer.digest x) := by
      intro x q hq
      refine Moved.of_eq fun l hl g hg => ?_
      simpa [hok q hq l hl] using hg
    simp only
    split_ifs with hshort
    · exact h.setFailed hp hL hk (hothers _)
    · obtain rfl : taken = b.length := by omega
      rw [List.take_length]
      refine h.setLayer hp (fun hf => hf.setFetch hL hk (by simp [hfetch])) (hothers _) (fun hs => .inr ?_)
      exact hs.read hL hk hfetch hv

theorem Inv.record (h : Inv sum s) {out : Outcome} (hok : Careful sum text threshold blob s (.record i j k out))
    (hat : s.entryAt i j k = some (p, L, e)) (hfetch : e.fetch = .recording w) :
    Inv sum (s.record sum text i j k p L e w out) := by
  obtain ⟨hp, hL, hk⟩ := State.entryAt_eq hat
  simp only [Careful, hat] at hok
  have hfiles : ∀ q ∈ s.pulls, ∀ l ∈ q.m.all,
      (putBytes s.files (sum (cacheKey text L.layer.digest e.cs)) (cacheKey text L.layer.digest e.cs) out).1 l.digest =
        s.files l.digest :=
    fun q hq l hl => putBytes_ne _ (hok q hq l hl)
  unfold State.record
  simp only
  split_ifs with hdone
  · exact h.setWriter hp hL hk (by simp [Entry.writer, hfetch]) rfl hfiles
  · refine h.setFailed hp hL hk fun q hq => Moved.of_eq fun l hl g hg => ?_
    rw [hfiles q (List.mem_of_mem_eraseIdx hq) l hl, hg]

end

/-! ### The end of a pull -/

section
variable {sum : Bytes → δ} {files : δ → Option Bytes} {W : δ → Nat → UInt8 → Prop} {m : Manifest δ} {p : Pull δ}
  {L : LayerState δ} {l : Layer δ} {e : Entry δ}

theorem EntrySound.count_nonneg (h : EntrySound sum files W l e) (hl : l.size < 2 ^ 63) : 0 ≤ e.count := by
  obtain ⟨h0, h1, h2⟩ := h.range
  unfold Entry.count
  split
  · rw [Chunk.size_eq h0 h1 h2 hl]
    omega
  all_goals omega

theorem EntrySound.count_le (h : EntrySound sum files W l e) (hl : l.size < 2 ^ 63) :
    e.count ≤ e.cs.chunk.stop + 1 - e.cs.chunk.start := by
  obtain ⟨h0, h1, h2⟩ := h.range
  have hwriter : ∀ w, e.writer = some w → (w.n : Int) ≤ e.cs.chunk.stop + 1 - e.cs.chunk.start := by
    intro w hw
    obtain ⟨hws, -⟩ := h.written w hw
    have := hws.le
    have := hws.size
    omega
  unfold Entry.count
  split
  · rw [Chunk.size_eq h0 h1 h2 hl]
  · rename_i w hw
    exact hwriter w (by simp [Entry.writer, hw])
  · rename_i w hw
    exact hwriter w (by simp [Entry.writer, hw])
  · rename_i w hw
    exact hwriter w (by simp [Entry.writer, hw])
  · omega

section
variable (h : LayerSound sum m files W L) (h0 : 0 ≤ L.layer.size) (hl : L.layer.size < 2 ^ 63)
include h h0 hl

theorem LayerSound.count_nonneg : 0 ≤ L.count := by
  unfold LayerState.count
  split_ifs
  · exact h0
  · apply List.sum_nonneg
    intro x hx
    obtain ⟨e, he, rfl⟩ := List.mem_map.mp hx
    exact (h.entries e he).count_nonneg hl

theorem LayerSound.chunks_le :
    (L.entries.map (·.count)).sum ≤ (L.entries.map fun e => e.cs.chunk.stop + 1 - e.cs.chunk.start).sum ∧
      (L.entries.map fun e => e.cs.chunk.stop + 1 - e.cs.chunk.start).sum ≤ L.layer.size := by
  constructor
  · apply List.sum_le_sum
    exact fun e he => (h.entries e he).count_le hl
  · apply sum_length_le (fun e : Entry δ => e.cs.chunk.start) (fun e => e.cs.chunk.stop + 1) h0 _ h.apart
    intro e he
    have := (h.entries e he).range
    omega

theorem LayerSound.count_le : L.count ≤ L.layer.size := by
  have := h.chunks_le h0 hl
  unfold LayerState.count
  split_ifs <;> omega

/-- All bytes of an opened layer have counted: every chunk counted in full, and each byte is in one. -/
theorem LayerSound.covered (hopened : L.stage.opened) (hcount : L.count = L.layer.size) :
    (∀ e ∈ L.entries, e.count = e.cs.chunk.stop + 1 - e.cs.chunk.start) ∧
      ∀ i : Nat, (i : Int) < L.layer.size → ∃ e ∈ L.entries, e.cs.chunk.start ≤ i ∧ (i : Int) ≤ e.cs.chunk.stop := by
  have hle := h.chunks_le h0 hl
  have hstage : L.stage ≠ .cached := by
    intro hc
    simp [hc, Stage.opened] at hopened
  rw [LayerState.count, if_neg hstage] at hcount
  constructor
  · exact eq_of_sum_map_eq (fun e he => (h.entries e he).count_le hl) (le_antisymm hle.1 (hle.2.trans hcount.ge))
  · intro i hi
    have hin : ∀ e ∈ L.entries, 0 ≤ e.cs.chunk.start ∧ e.cs.chunk.start ≤ e.cs.chunk.stop + 1 ∧
        e.cs.chunk.stop + 1 ≤ L.layer.size := by
      intro e he
      have := (h.entries e he).range
      omega
    obtain ⟨e, he, h1, h2⟩ := exists_mem_of_sum_eq (fun e : Entry δ => e.cs.chunk.start) (fun e => e.cs.chunk.stop + 1) h0 hin h.apart
      (le_antisymm hle.2 (hcount.symm.le.trans hle.1)) (Int.natCast_nonneg i) hi
    exact ⟨e, he, h1, by omega⟩

end

/-- What a layer has when all of its bytes have counted and no chunk has failed. -/
structure LayerComplete (sum : Bytes → δ) (m : Manifest δ) (files : δ → Option Bytes) (W : δ → Nat → UInt8 → Prop)
    (L : LayerState δ) : Prop where
  file : ∃ f, files L.layer.digest = some f ∧ ∃ l ∈ m.all, l.digest = L.layer.digest ∧ (f.length : Int) ≤ l.size
  blob : ∃ X, sum X = L.layer.digest ∧ (X.length : Int) = L.layer.size
  settled : ∀ i : Nat, (i : Int) < L.layer.size → Settled sum files W L.layer.digest i
  entries : ∀ e ∈ L.entries, EntrySound sum files W L.layer e
  written : ∀ e ∈ L.entries, ∀ w, e.writer = some w → (w.n : Int) = w.size

theorem Entry.count_of_writer {w : CheckWriter δ} (hw : e.writer = some w) : e.count = w.n := by
  unfold Entry.writer at hw
  unfold Entry.count
  split at hw <;> simp_all

theorem Entry.writer_of_over (hover : e.fetch.over = true) (hfail : e.fetch ≠ .failed) :
    e.fetch = .cached ∨ ∃ w, e.writer = some w := by
  unfold Entry.writer
  cases hf : e.fetch with
  | cached => exact .inl rfl
  | done w => exact .inr ⟨w, rfl⟩
  | failed => exact absurd hf hfail
  | reading w => simp [hf, Fetch.over] at hover
  | recording w => simp [hf, Fetch.over] at hover

theorem LayerSound.complete (h : LayerSound sum m files W L) (h0 : 0 ≤ L.layer.size) (hl : L.layer.size < 2 ^ 63)
    (hover : L.stage.over = true) (hcount : L.count = L.layer.size)
    (hentries : ∀ e ∈ L.entries, e.fetch.over = true ∧ e.fetch ≠ .failed) : LayerComplete sum m files W L := by
  cases hstage : L.stage with
  | waiting => simp [hstage, Stage.over] at hover
  | missing => simp [hstage, Stage.over] at hover
  | ranging v => simp [hstage, Stage.over] at hover
  | unopened =>
    have hempty := h.unranged (by simp [hstage, Stage.opened])
    have := h.unopened hstage
    simp [LayerState.count, hstage, hempty] at hcount
    omega
  | cached =>
    obtain ⟨hblob, hsettled⟩ := h.cached hstage
    refine ⟨h.file (.inl hstage), hblob, hsettled, h.entries, ?_⟩
    simp [h.unranged (by simp [hstage, Stage.opened])]
  | ranged v =>
    have hopened : L.stage.opened := by simp [hstage, Stage.opened]
    obtain ⟨hfull, hcover⟩ := h.covered h0 hl hopened hcount
    have hwritten : ∀ e ∈ L.entries, ∀ w, e.writer = some w → (w.n : Int) = w.size := by
      intro e he w hw
      have := hfull e he
      rw [Entry.count_of_writer hw] at this
      rw [((h.entries e he).written w hw).1.size]
      exact this
    refine ⟨h.file (.inr hopened), ?_, ?_, h.entries, hwritten⟩
    · -- an empty layer, a chunk sum of the registry, or the one chunk of the layer
      by_cases hzero : L.layer.size = 0
      · exact ⟨[], h.empty hopened hzero, by simp [hzero]⟩
      obtain ⟨e, he, -⟩ := hcover 0 (by omega)
      have hes := h.entries e he
      obtain hwhole | ⟨X, hX, hlen, -⟩ := hes.honest
      · have hd : e.cs.digest = L.layer.digest := by rw [hwhole]; rfl
        have hstop : e.cs.chunk.stop + 1 - e.cs.chunk.start = L.layer.size := by
          rw [hwhole]
          simp [Layer.whole]
        obtain hc | ⟨w, hw⟩ := Entry.writer_of_over (hentries e he).1 (hentries e he).2
        · obtain ⟨⟨c, hc, hlen⟩, -⟩ := hes.cached hc
          exact ⟨c, hc.trans hd, hlen.trans hstop⟩
        · obtain ⟨hws, -⟩ := hes.written w hw
          have hn := hwritten e he w hw
          have hsize := hws.size
          refine ⟨w.h, (hws.hash hn (by omega)).trans hd, ?_⟩
          rw [hws.length]
          omega
      · exact ⟨X, hX, hlen⟩
    · intro i hi
      obtain ⟨e, he, h1, h2⟩ := hcover i hi
      have hes := h.entries e he
      obtain hc | ⟨w, hw⟩ := Entry.writer_of_over (hentries e he).1 (hentries e he).2
      · exact (hes.cached hc).2 i h1 h2
      · obtain ⟨hws, hsettled⟩ := hes.written w hw
        have hn := hwritten e he w hw
        have hsize := hws.size
        exact hsettled i h1 (by omega)

/-- Every chunk has matched its hash, so what the pull wrote is what the blobs have. -/
theorem Pull.Wrote.good (hinj : Function.Injective sum) (hcomplete : ∀ L ∈ p.layers, LayerComplete sum m files W L)
    {d : δ} {i : Nat} {b : UInt8} (h : p.Wrote d i b) : ∃ X, sum X = d ∧ X[i]? = some b := by
  obtain ⟨L, hL, rfl, e, he, w, hw, hstart, hb⟩ := h
  have hes := (hcomplete L hL).entries e he
  have hn := (hcomplete L hL).written e he w hw
  obtain ⟨hws, -⟩ := hes.written w hw
  have hlt := (List.getElem?_eq_some_iff.mp hb).1
  have hlen := hws.length
  have hsize := hws.size
  have hsum := hws.hash hn (by omega)
  have h0 := hes.range.1
  obtain hwhole | ⟨X, hX, -, hslice⟩ := hes.honest
  · refine ⟨w.h, by rw [hsum, hwhole]; rfl, ?_⟩
    have hzero : e.cs.chunk.start.toNat = 0 := by simp [hwhole, Layer.whole]
    rwa [hzero, Nat.sub_zero] at hb
  · refine ⟨X, hX, ?_⟩
    have heq : e.cs.chunk.slice X = w.h := hinj (hslice.trans hsum.symm)
    rw [← Chunk.getElem?_slice (c := e.cs.chunk) h0 (by omega) (by omega), heq, hb]

/-- All layers of a pull are complete. -/
theorem PullSound.stored (hinj : Function.Injective sum) (h : PullSound sum files p)
    (hcomplete : ∀ L ∈ p.layers, LayerComplete sum p.m files p.Wrote L) : p.m.Stored sum files := by
  have hlayer : ∀ l ∈ p.m.all, ∃ L ∈ p.layers, L.layer = l := by
    intro l hl
    rw [← h.layers_eq] at hl
    simpa using hl
  intro l hl
  obtain ⟨L, hL, rfl⟩ := hlayer l hl
  obtain ⟨f, hf, l', hl', hd, hle⟩ := (hcomplete L hL).file
  obtain ⟨X, hX, hXlen⟩ := (hcomplete L hL).blob
  obtain ⟨L', hL', rfl⟩ := hlayer l' hl'
  obtain ⟨X', hX', hXlen'⟩ := (hcomplete L' hL').blob
  obtain rfl : X = X' := hinj (by rw [hX, hX', hd])
  have hbytes : ∀ i : Nat, i < X.length → f[i]? = X[i]? := by
    intro i hi
    obtain ⟨g, b, hg, hb, hgood⟩ := (hcomplete L hL).settled i (by omega)
    obtain rfl : f = g := by simpa [hf] using hg
    have hY : ∃ Y, sum Y = L.layer.digest ∧ Y[i]? = some b := by
      obtain hgood | hw := hgood
      · exact hgood
      · exact hw.good hinj hcomplete
    obtain ⟨Y, hY, hYb⟩ := hY
    obtain rfl : X = Y := hinj (by rw [hX, hY])
    rw [hb, hYb]
  have hfX : f = X := by
    apply List.ext_getElem?
    intro i
    by_cases hi : i < X.length
    · exact hbytes i hi
    · rw [List.getElem?_eq_none (by omega), List.getElem?_eq_none (by omega)]
  subst hfX
  exact ⟨f, hf, hXlen, hX⟩

theorem foldl_wrap (xs : List Int) (a : Int) : xs.foldl (fun a b => wrap (a + b)) (wrap a) = wrap (a + xs.sum) := by
  induction xs generalizing a with
  | nil => simp
  | cons x xs ih =>
    have hx : wrap (wrap a + x) = wrap (a + x) := by simp [wrap]
    rw [List.foldl_cons, hx, ih, List.sum_cons, Int.add_assoc]

theorem wrap_eq {x : Int} (h0 : 0 ≤ x) (h1 : x < 2 ^ 63) : wrap x = x := by
  unfold wrap
  rw [Int.bmod_eq_of_le] <;> omega

/-- A pull whose chunks are over and whose count is right. -/
theorem PullSound.complete (h : PullSound sum files p) (hfailed : ¬ p.Failed)
    (hover : ∀ L ∈ p.layers, L.stage.over = true ∧ ∀ e ∈ L.entries, e.fetch.over = true)
    (hcount : p.completed = p.expected) : ∀ L ∈ p.layers, LayerComplete sum p.m files p.Wrote L := by
  have h0 : ∀ L ∈ p.layers, 0 ≤ L.layer.size := fun L hL => h.nonneg _ (h.mem_all hL)
  have hl : ∀ L ∈ p.layers, L.layer.size < 2 ^ 63 := fun L hL => h.size_lt (h.mem_all hL)
  have hle : ∀ L ∈ p.layers, L.count ≤ L.layer.size := fun L hL => (h.layers L hL).count_le (h0 L hL) (hl L hL)
  have hnonneg : 0 ≤ (p.layers.map (·.count)).sum := by
    apply List.sum_nonneg
    intro x hx
    obtain ⟨L, hL, rfl⟩ := List.mem_map.mp hx
    exact (h.layers L hL).count_nonneg (h0 L hL) (hl L hL)
  have hsizes : (p.m.all.map (·.size)).sum = (p.layers.map (·.layer.size)).sum := by
    rw [← h.layers_eq, List.map_map]
    rfl
  have hsum : (p.layers.map (·.count)).sum ≤ (p.layers.map (·.layer.size)).sum := List.sum_le_sum hle
  have htotal := h.total
  rw [hsizes] at htotal
  have hexpected : p.expected = (p.layers.map (·.layer.size)).sum := by
    have hfold := foldl_wrap (p.m.all.map (·.size)) 0
    rw [wrap_eq (by omega) (by omega), Int.zero_add, hsizes, wrap_eq (by omega) htotal] at hfold
    exact hfold
  have heq : (p.layers.map (·.count)).sum = (p.layers.map (·.layer.size)).sum := by
    rw [← hexpected, ← hcount, h.completed, wrap_eq hnonneg (by omega)]
  intro L hL
  apply (h.layers L hL).complete (h0 L hL) (hl L hL) (hover L hL).1 (eq_of_sum_map_eq hle heq L hL)
  intro e he
  exact ⟨(hover L hL).2 e he, fun hf => hfailed ⟨L, hL, e, he, hf⟩⟩

end

section
variable [DecidableEq δ] {sum : Bytes → δ} {text : δ → Bytes} {threshold : Int} {blob : δ → Bytes} {s s' : State δ}
  {p : Pull δ} {i : Nat}

/-- A manifest that is stored under its own digest does not touch a complete layer. -/
theorem Manifest.Stored.putBytes (hinj : Function.Injective sum) {files : δ → Option Bytes} {m : Manifest δ}
    (h : m.Stored sum files) (data : Bytes) (out : Outcome) : m.Stored sum (putBytes files (sum data) data out).1 := by
  intro l hl
  obtain ⟨f, hf, hlen, hsum⟩ := h l hl
  refine ⟨f, ?_, hlen, hsum⟩
  by_cases hd : l.digest = sum data
  · have hfd : f = data := hinj (hsum.trans hd)
    have hstat : (files (sum data)).map (fun f => (f.length : Int)) = some (data.length : Int) := by
      rw [← hd, hf, hfd]
      rfl
    rw [Blob.putBytes, if_pos hstat]
    exact hf
  · rw [putBytes_ne _ hd, hf]

theorem Inv.finish (hinj : Function.Injective sum) (h : Inv sum s) {out : Outcome} {linkErr : Bool}
    (hok : Careful sum text threshold blob s (.finish i out linkErr)) (hp : s.pulls[i]? = some p)
    (hover : ∀ L ∈ p.layers, L.stage.over = true ∧ ∀ e ∈ L.entries, e.fetch.over = true) :
    Inv sum (s.finish sum i p out linkErr) := by
  simp only [Careful, hp] at hok
  have hpulls : ∀ q ∈ s.pulls.eraseIdx i, q.Failed ∨ PullSound sum s.files q :=
    fun q hq => h.pulls q (List.mem_of_mem_eraseIdx hq)
  have hframe : ∀ q ∈ s.pulls.eraseIdx i, q.Failed ∨
      PullSound sum (putBytes s.files (sum p.m.data) p.m.data out).1 q := by
    refine fun q hq => (hpulls q hq).imp_right fun hs => hs.frame (Moved.of_eq fun l hl f hf => ?_)
    rw [putBytes_ne _ (hok q hq l hl), hf]
  unfold State.finish
  simp only
  split_ifs with hany hcount hput hlink
  · exact ⟨hpulls, by simp⟩
  · exact ⟨hpulls, by simp⟩
  · exact ⟨hframe, by simp⟩
  · refine ⟨hframe, ?_⟩
    intro m hm
    obtain rfl : p.m = m := (Prod.mk.inj (Option.some.inj hm)).1
    have hfailed : ¬ p.Failed := by
      rintro ⟨L, hL, e, he, hf⟩
      apply hany
      rw [List.any_eq_true]
      exact ⟨L, hL, List.any_eq_true.mpr ⟨e, he, by simpa using hf⟩⟩
    have hs := (h.pulls p (List.mem_of_getElem? hp)).resolve_left hfailed
    have hcomplete := hs.complete hfailed hover (by simpa using hcount)
    exact (hs.stored hinj hcomplete).putBytes hinj _ _
  · exact ⟨hframe, by simp⟩

theorem Inv.pull (h : Inv sum s) {m : Manifest δ} (hok : Careful sum text threshold blob s (.pull m)) :
    Inv sum { s with pulls := s.pulls ++ [⟨m, m.all.map (⟨·, .waiting, []⟩), 0⟩], returned := none } := by
  obtain ⟨hnonneg, htotal⟩ := hok
  refine ⟨?_, by simp⟩
  intro q hq
  obtain hq | hq := List.mem_append.mp hq
  · exact h.pulls q hq
  · obtain rfl := List.mem_singleton.mp hq
    refine .inr ⟨by simp [Function.comp_def], hnonneg, htotal, ?_, ?_⟩
    · intro L hL
      obtain ⟨l, -, rfl⟩ := List.mem_map.mp hL
      exact ⟨by simp [Stage.opened], by simp, by simp [Stage.opened], by simp, by simp, by simp, by simp⟩
    · simp [Function.comp_def, LayerState.count, wrap]

theorem Inv.step (hinj : Function.Injective sum) {e : Event δ} (h : Inv sum s)
    (hok : Careful sum text threshold blob s e) (hs : s.step sum text threshold e = some s') : Inv sum s' := by
  cases e with
  | pull m =>
    simp only [State.step] at hs
    split_ifs at hs
    · obtain rfl := Option.some.inj hs
      exact ⟨h.pulls, by simp⟩
    · obtain rfl := Option.some.inj hs
      exact h.pull hok
  | get i j =>
    simp only [State.step, Option.bind_eq_bind, Option.bind_eq_some_iff] at hs
    obtain ⟨⟨p, L⟩, hat, hs⟩ := hs
    split_ifs at hs with hstage
    obtain rfl := Option.some.inj hs
    exact h.get hok hat hstage
  | chunked i j openErr =>
    simp only [State.step, Option.bind_eq_bind, Option.bind_eq_some_iff] at hs
    obtain ⟨⟨p, L⟩, hat, hs⟩ := hs
    split_ifs at hs with hstage
    obtain rfl := Option.some.inj hs
    exact h.chunked hok hat hstage
  | chunksum i j cs =>
    simp only [State.step, Option.bind_eq_bind, Option.bind_eq_some_iff] at hs
    obtain ⟨⟨p, L⟩, hat, hs⟩ := hs
    split at hs
    · rename_i v hstage
      split_ifs at hs with hyields
      obtain rfl := Option.some.inj hs
      exact h.chunksum hinj hok hat hstage hyields
    · simp at hs
  | rangeEnd i j =>
    simp only [State.step, Option.bind_eq_bind, Option.bind_eq_some_iff] at hs
    obtain ⟨⟨p, L⟩, hat, hs⟩ := hs
    split at hs
    · rename_i v hstage
      obtain rfl := Option.some.inj hs
      exact h.rangeEnd hat hstage
    · simp at hs
  | read i j k b taken =>
    simp only [State.step, Option.bind_eq_bind, Option.bind_eq_some_iff] at hs
    obtain ⟨⟨p, L, e⟩, hat, hs⟩ := hs
    split at hs
    · rename_i w hfetch _
      split_ifs at hs with hlen
      obtain rfl := Option.some.inj hs
      exact h.read hok hat hfetch hlen.2
    · rename_i w hfetch _
      split_ifs at hs with hlen
      obtain rfl := Option.some.inj hs
      exact h.read hok hat hfetch hlen.2
    · simp at hs
  | bodyEnd i j k =>
    simp only [State.step, Option.bind_eq_bind, Option.bind_eq_some_iff] at hs
    obtain ⟨⟨p, L, e⟩, hat, hs⟩ := hs
    split at hs
    · rename_i w v hfetch _
      obtain rfl := Option.some.inj hs
      exact h.bodyEnd hat hfetch v
    · rename_i w v hfetch _
      obtain rfl := Option.some.inj hs
      exact h.bodyEnd hat hfetch v
    · simp at hs
  | bodyErr i j k =>
    simp only [State.step, Option.bind_eq_bind, Option.bind_eq_some_iff] at hs
    obtain ⟨⟨p, L, e⟩, hat, hs⟩ := hs
    split at hs
    · obtain rfl := Option.some.inj hs
      obtain ⟨hp, hL, hk⟩ := State.entryAt_eq hat
      exact h.setFailed hp hL hk fun q _ => Moved.refl q.m q.Wrote s.files
    · simp at hs
  | record i j k out =>
    simp only [State.step, Option.bind_eq_bind, Option.bind_eq_some_iff] at hs
    obtain ⟨⟨p, L, e⟩, hat, hs⟩ := hs
    split at hs
    · rename_i w hfetch
      obtain rfl := Option.some.inj hs
      exact h.record hok hat hfetch
    · simp at hs
  | finish i out linkErr =>
    simp only [State.step, Option.bind_eq_bind, Option.bind_eq_some_iff] at hs
    obtain ⟨p, hp, hs⟩ := hs
    split_ifs at hs with hover
    obtain rfl := Option.some.inj hs
    simp only [List.all_eq_true, Bool.and_eq_true] at hover
    exact h.finish hinj hok hp hover
  | crash =>
    obtain rfl := Option.some.inj hs
    exact ⟨by simp, by simp⟩

/-- In every run of pulls over any content of the cache, when nothing of what `Careful` names goes
wrong, a pull that returns no error has every layer of its manifest in the cache. -/
theorem pull_stored (sum : Bytes → δ) (hinj : Function.Injective sum) (text : δ → Bytes) (threshold : Int)
    (blob : δ → Bytes) {s : State δ}
    (h : Reaches (State.step · sum text threshold) (Careful sum text threshold blob)
      (fun s => s.pulls = [] ∧ s.returned = none) s) {m : Manifest δ} (hret : s.returned = some (m, none)) :
    m.Stored sum s.files := by
  have hinv : Inv sum s := by
    refine h.invariant ?_ ?_
    · rintro s ⟨hpulls, hreturned⟩
      exact ⟨by simp [hpulls], by simp [hreturned]⟩
    · intro s e s' hs hok hstep
      exact hs.step hinj hok hstep
  exact hinv.returned m hret

end

/-! ## Two runs -/

def emptyCache : State Bytes := ⟨fun _ => none, [], none⟩

/-- A layer of four bytes, at the chunking threshold. -/
def fourBytes : Manifest Bytes := ⟨[0], [⟨[1, 2, 3, 4], 4⟩], none⟩

/-- A pull up to the point where the second of its two chunks is complete. -/
def secondChunk : List (Event Bytes) :=
  [.pull fourBytes, .get 0 0, .chunked 0 0 false, .chunksum 0 0 ⟨⟨0, 1⟩, [1, 2]⟩, .chunksum 0 0 ⟨⟨2, 3⟩, [3, 4]⟩,
    .rangeEnd 0 0, .read 0 0 1 [3, 4] 2, .bodyEnd 0 0 1, .record 0 0 1 .stored]

def wholePull : List (Event Bytes) :=
  secondChunk ++ [.read 0 0 0 [1] 1, .read 0 0 0 [2] 1, .bodyEnd 0 0 0, .record 0 0 0 .stored, .finish 0 .stored false]

theorem wholePull_stored :
    let s := (exec (State.step · plain plain 4) emptyCache wholePull).get (by decide +kernel)
    s.returned = some (fourBytes, none) ∧ fourBytes.Stored plain s.files := by
  have hret : ((exec (State.step · plain plain 4) emptyCache wholePull).get (by decide +kernel)).returned =
      some (fourBytes, none) := by decide +kernel
  refine ⟨hret, pull_stored plain Function.injective_id plain 4 plain ?_ hret⟩
  exact reaches_of_exec (Reaches.init ⟨rfl, rfl⟩) (by decide +kernel) (Option.some_get _).symm

/-- The process is killed there. The file has its size, and the next pull takes it as it is. -/
def interruptedPull : List (Event Bytes) :=
  secondChunk ++ [.crash, .pull fourBytes, .get 0 0, .finish 0 .stored false]

theorem interruptedPull_not_stored :
    let s := (exec (State.step · plain plain 4) emptyCache interruptedPull).get (by decide +kernel)
    Reaches (State.step · plain plain 4) (fun _ _ => True) (fun s => s.pulls = [] ∧ s.returned = none) s ∧
      s.returned = some (fourBytes, none) ∧ s.files [1, 2, 3, 4] = some [0, 0, 3, 4] ∧ ¬ fourBytes.Stored plain s.files := by
  have hfile : ((exec (State.step · plain plain 4) emptyCache interruptedPull).get (by decide +kernel)).files [1, 2, 3, 4] =
      some [0, 0, 3, 4] := by decide +kernel
  refine ⟨?_, by decide +kernel, hfile, ?_⟩
  · exact reaches_of_exec (Reaches.init ⟨rfl, rfl⟩) (by decide +kernel) (Option.some_get _).symm
  · intro h
    obtain ⟨f, hf, -, hsum⟩ := h ⟨[1, 2, 3, 4], 4⟩ (by decide)
    obtain rfl : [0, 0, 3, 4] = f := Option.some.inj (hfile.symm.trans hf)
    exact absurd hsum (by decide)

end Xdragon.Registry
