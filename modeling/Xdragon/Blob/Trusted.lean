import Xdragon.Blob.Cache

/-!
# Blobs are trustworthy

A file that has the size of its blob has the content of its blob. A file grows to its size in one
write only, the last one, and that write comes after the hash of everything before it was checked.
-/

namespace Xdragon.Blob

open Xdragon.Lib

variable {δ : Type} [DecidableEq δ]

/-- What the callers see: presence is judged by the size alone. -/
structure Trusted (sum : Bytes → δ) (size : δ → Int) (s : DiskCache δ) : Prop where
  hashes : ∀ d f, s.files d = some f → (f.length : Int) = size d → 0 < size d → sum f = d
  sized : ∀ d, s.returned = some (d, none) → ∃ f, s.files d = some f ∧ (f.length : Int) = size d

/-- Each digest comes with one size. -/
def OneSize (size : δ → Int) (_ : DiskCache δ) : Event δ → Prop
  | .put d sz _ => sz = size d
  | _ => True

/-- Each digest comes with one size that is not negative, and no `Put` of a digest starts while
another one of it is in progress. -/
def InTurn (size : δ → Int) (s : DiskCache δ) : Event δ → Prop
  | .put d sz _ => sz = size d ∧ 0 ≤ size d ∧ ∀ c ∈ s.calls, c.w.d ≠ d
  | _ => True

instance (size : δ → Int) (s : DiskCache δ) (e : Event δ) : Decidable (OneSize size s e) := by
  unfold OneSize; split <;> infer_instance

instance (size : δ → Int) (s : DiskCache δ) (e : Event δ) : Decidable (InTurn size s e) := by
  unfold InTurn; split <;> infer_instance

/-! ## The invariant -/

/-- What a call has written so far. Until its last write the file is short. -/
structure Written (size : Int) (w : CheckWriter δ) (f : Bytes) : Prop where
  size_eq : w.size = size
  content : w.err = none → f.take w.n = w.h
  start : w.n ≤ f.length
  fits : (f.length : Int) ≤ size
  short : (w.n : Int) < size → (f.length : Int) < size

structure Kept (sum : Bytes → δ) (size : δ → Int) (s : DiskCache δ) : Prop extends Trusted sum size s where
  alone : ∀ (i j : Nat) (a b : Call δ), s.calls[i]? = some a → s.calls[j]? = some b → a.w.d = b.w.d → i = j
  written : ∀ (i : Nat) c, s.calls[i]? = some c → ∃ f, s.files c.w.d = some f ∧ Written (size c.w.d) c.w f
  closing : ∀ (i : Nat) c, s.calls[i]? = some c → c.phase = .closing → (c.w.n : Int) = c.w.size

omit [DecidableEq δ] in
theorem kept_empty (sum : Bytes → δ) (size : δ → Int) : Kept sum size (DiskCache.empty : DiskCache δ) := by
  constructor <;> simp [DiskCache.empty]
  constructor <;> simp

/-! ## One write -/

/-- A write that the writer admits keeps what was written, and makes the file whole only when its
content has the right hash. -/
theorem Written.write {sum : Bytes → δ} {size : Int} {w : CheckWriter δ} {f p : Bytes} {k : Nat}
    (h : Written size w f) (hk : k ≤ p.length) (hv : w.verify sum p = .ok ()) :
    Written size (w.wrote p k) (writeAt f w.n (p.take k)) ∧
      (((writeAt f w.n (p.take k)).length : Int) = size → (f.length : Int) = size ∧ p.take k = [] ∨
        sum (writeAt f w.n (p.take k)) = w.d) := by
  obtain ⟨herr, hle, hsum⟩ := CheckWriter.verify_ok hv
  have hsize := h.size_eq
  have hlen : (p.take k).length = k := by simp [hk]
  have htake := take_writeAt_add (p.take k) h.start
  rw [hlen, h.content herr] at htake
  by_cases hnil : p.take k = []
  · have hk0 : k = 0 := by simpa [hnil] using hlen.symm
    subst hk0
    refine ⟨⟨hsize, ?_, h.start, h.fits, h.short⟩, fun heq => .inl ⟨heq, hnil⟩⟩
    intro hnone
    have hp : p = [] := by simpa [CheckWriter.wrote] using hnone
    simpa [CheckWriter.wrote, hp] using h.content herr
  · have hl : (writeAt f w.n (p.take k)).length = max f.length (w.n + (p.take k).length) := length_writeAt hnil
    rw [hlen] at hl
    refine ⟨⟨hsize, ?_, ?_, ?_, ?_⟩, ?_⟩
    · intro hnone
      have hkp : p.length ≤ k := by simpa [CheckWriter.wrote] using hnone
      have hpk : p.take k = p := List.take_of_length_le hkp
      simpa [CheckWriter.wrote, hpk] using htake
    · simp only [CheckWriter.wrote, hl]
      omega
    · have := h.fits
      rw [hl]
      omega
    · intro hlt
      have hpos : 0 < k := by
        rw [← hlen]
        exact List.length_pos_iff.mpr hnil
      have hshort := h.short (by simp [CheckWriter.wrote] at hlt; omega)
      simp only [CheckWriter.wrote] at hlt
      rw [hl]
      omega
    · intro heq
      rw [hl] at heq
      have hpos : 0 < k := by
        rw [← hlen]
        exact List.length_pos_iff.mpr hnil
      have hshort := h.short (by omega)
      have hlast : k = p.length := by omega
      have hpk : p.take k = p := List.take_of_length_le (by omega)
      right
      have hwhole : writeAt f w.n (p.take k) = w.h ++ p := by
        rw [← List.take_of_length_le (show (writeAt f w.n (p.take k)).length ≤ w.n + k by omega), htake, hpk]
      rw [hwhole]
      exact hsum (by omega)

/-! ## The steps -/

variable {sum : Bytes → δ} {size : δ → Int} {s : DiskCache δ} {c : Call δ} {i : Nat}

/-- A step of one call, which goes on. -/
theorem Kept.goesOn (h : Kept sum size s) (hc : s.calls[i]? = some c) (c' : Call δ) (f' : Bytes)
    (hd : c'.w.d = c.w.d) (hw : Written (size c.w.d) c'.w f')
    (hsum : (f'.length : Int) = size c.w.d → 0 < size c.w.d → sum f' = c.w.d)
    (hclosing : c'.phase = .closing → (c'.w.n : Int) = c'.w.size) :
    Kept sum size ⟨Function.update s.files c.w.d (some f'), s.calls.set i c', none⟩ := by
  have hi : i < s.calls.length := (List.getElem?_eq_some_iff.mp hc).1
  have hget : ∀ (j : Nat) a, (s.calls.set i c')[j]? = some a → i = j ∧ a = c' ∨ i ≠ j ∧ s.calls[j]? = some a := by
    intro j a ha
    by_cases hij : i = j
    · subst hij
      exact .inl ⟨rfl, by simpa [hi, eq_comm] using ha⟩
    · exact .inr ⟨hij, by simpa [hij] using ha⟩
  refine ⟨⟨?_, by simp⟩, ?_, ?_, ?_⟩
  · intro d f hf hlen hpos
    by_cases hdd : d = c.w.d
    · subst hdd
      have : f' = f := by simpa using hf
      subst this
      exact hsum hlen hpos
    · exact h.hashes d f (by simpa [hdd] using hf) hlen hpos
  · intro j k a b ha hb hab
    obtain ⟨rfl, rfl⟩ | ⟨hij, ha'⟩ := hget j a ha <;> obtain ⟨rfl, rfl⟩ | ⟨hik, hb'⟩ := hget k b hb
    · rfl
    · exact h.alone _ _ _ _ hc hb' (hd.symm.trans hab)
    · exact h.alone _ _ _ _ ha' hc (hab.trans hd)
    · exact h.alone _ _ _ _ ha' hb' hab
  · intro j a ha
    obtain ⟨rfl, rfl⟩ | ⟨hij, ha⟩ := hget j a ha
    · exact ⟨f', by simp [hd], hd ▸ hw⟩
    · have hne : a.w.d ≠ c.w.d := fun heq => hij (h.alone _ _ _ _ ha hc heq).symm
      simpa [hne] using h.written j a ha
  · intro j a ha
    obtain ⟨rfl, rfl⟩ | ⟨hij, ha⟩ := hget j a ha
    · exact hclosing
    · exact h.closing j a ha

/-- The return of one call. -/
theorem Kept.returns (h : Kept sum size s) (hc : s.calls[i]? = some c) {x : Option Bytes} {r : Option Error}
    (hsum : ∀ f, x = some f → (f.length : Int) = size c.w.d → 0 < size c.w.d → sum f = c.w.d)
    (hret : r = none → ∃ f, x = some f ∧ (f.length : Int) = size c.w.d) :
    Kept sum size ⟨Function.update s.files c.w.d x, s.calls.eraseIdx i, some (c.w.d, r)⟩ := by
  have hget : ∀ (j : Nat) a, (s.calls.eraseIdx i)[j]? = some a →
      ∃ k, k ≠ i ∧ (k = if j < i then j else j + 1) ∧ s.calls[k]? = some a := by
    intro j a ha
    rw [List.getElem?_eraseIdx] at ha
    split_ifs at ha with hji
    · exact ⟨j, by omega, by simp [hji], ha⟩
    · exact ⟨j + 1, by omega, by simp [hji], ha⟩
  refine ⟨⟨?_, ?_⟩, ?_, ?_, ?_⟩
  · intro d f hf hlen hpos
    by_cases hdd : d = c.w.d
    · subst hdd
      exact hsum f (by simpa using hf) hlen hpos
    · exact h.hashes d f (by simpa [hdd] using hf) hlen hpos
  · intro d hd
    obtain ⟨rfl, rfl⟩ : c.w.d = d ∧ r = none := by simpa using hd
    simpa using hret rfl
  · intro j k a b ha hb hab
    obtain ⟨j', -, hj, ha⟩ := hget j a ha
    obtain ⟨k', -, hk, hb⟩ := hget k b hb
    have := h.alone _ _ _ _ ha hb hab
    split_ifs at hj hk <;> omega
  · intro j a ha
    obtain ⟨k, hk, -, ha⟩ := hget j a ha
    have hne : a.w.d ≠ c.w.d := fun heq => hk (h.alone _ _ _ _ ha hc heq)
    simpa [hne] using h.written k a ha
  · intro j a ha
    obtain ⟨k, -, -, ha⟩ := hget j a ha
    exact h.closing k a ha

/-- A step of one call that leaves the file as it is. -/
theorem Kept.rephase (h : Kept sum size s) (hc : s.calls[i]? = some c) (phase : Phase)
    (hclosing : phase = .closing → (c.w.n : Int) = c.w.size) :
    Kept sum size { s with calls := s.calls.set i { c with phase }, returned := none } := by
  obtain ⟨f, hf, hw⟩ := h.written i c hc
  have hs := h.goesOn hc { c with phase } f rfl hw (h.hashes _ _ hf) hclosing
  rwa [← hf, Function.update_eq_self] at hs

theorem Kept.write (h : Kept sum size s) (hc : s.calls[i]? = some c) {p : Bytes} {k : Nat} (hk : k ≤ p.length) :
    Kept sum size (s.write sum i c p k) := by
  obtain ⟨f, hf, hw⟩ := h.written i c hc
  unfold DiskCache.write
  split
  · -- the file is left as it is until the truncation
    exact h.rephase hc _ (by simp)
  · rename_i hv
    obtain ⟨hw', hwhole⟩ := hw.write hk hv
    rw [hf, Option.map_some]
    refine h.goesOn hc ⟨c.w.wrote p k, _⟩ _ rfl hw' ?_ ?_
    · intro hlen hpos
      obtain ⟨hfull, hnil⟩ | hsum := hwhole hlen
      · simpa [hnil] using h.hashes _ _ hf hfull hpos
      · exact hsum
    · simp only
      split_ifs <;> simp

theorem Kept.eof (h : Kept sum size s) (hc : s.calls[i]? = some c) : Kept sum size (s.eof i c) := by
  obtain ⟨f, hf, hw⟩ := h.written i c hc
  unfold DiskCache.eof
  apply h.rephase hc
  have := hw.size_eq
  have := hw.fits
  have := hw.start
  split_ifs
  · simp
  · omega

theorem Kept.readErr (h : Kept sum size s) (hc : s.calls[i]? = some c) : Kept sum size (s.readErr i c) :=
  h.rephase hc _ (by simp)

theorem Kept.truncate (h : Kept sum size s) (hc : s.calls[i]? = some c) (e : Error) (done : Bool) :
    Kept sum size (s.truncate i c e done) := by
  obtain ⟨f, hf, hw⟩ := h.written i c hc
  unfold DiskCache.truncate
  cases done with
  | true =>
    simp only [if_true, hf, Option.map_some]
    apply h.returns hc
    · intro g hg hlen hpos
      obtain rfl : [] = g := by simpa using hg
      simp at hlen
      omega
    · simp
  | false =>
    have hs := h.returns hc (x := s.files c.w.d) (r := some e) (h.hashes _) (by simp)
    rwa [Function.update_eq_self] at hs

theorem Kept.close (h : Kept sum size s) (hc : s.calls[i]? = some c) (hphase : c.phase = .closing)
    (closeErr removed : Bool) : Kept sum size (s.close i c closeErr removed) := by
  obtain ⟨f, hf, hw⟩ := h.written i c hc
  have hn := h.closing i c hc hphase
  unfold DiskCache.close
  split_ifs
  · exact h.returns hc (by simp) (by simp)
  · have hs := h.returns hc (x := s.files c.w.d) (r := some .close) (h.hashes _) (by simp)
    rwa [Function.update_eq_self] at hs
  · have hs := h.returns hc (x := s.files c.w.d) (r := none) (h.hashes _) ?_
    · rwa [Function.update_eq_self] at hs
    · have := hw.size_eq
      have := hw.fits
      have := hw.start
      exact fun _ => ⟨f, hf, by omega⟩

/-- A call that finds no other of its digest. A file that is too long is emptied, and what is left
of a shorter one is overwritten from its start. -/
theorem Kept.put (h : Kept sum size s) {d : δ} (hpos : 0 ≤ size d) (halone : ∀ c ∈ s.calls, c.w.d ≠ d)
    (openErr : Bool) : Kept sum size (s.put d (size d) openErr) := by
  unfold DiskCache.put
  have hopened : ((DiskCache.opened (size d) (s.files d)).length : Int) ≤ size d := by
    unfold DiskCache.opened
    split
    · simpa using hpos
    · split_ifs
      · simpa using hpos
      · omega
  split_ifs with hstat hopen hzero
  · refine ⟨⟨h.hashes, ?_⟩, h.alone, h.written, h.closing⟩
    intro d' hd'
    obtain rfl : d = d' := by simpa using hd'
    simpa using hstat
  · exact ⟨⟨h.hashes, by simp⟩, h.alone, h.written, h.closing⟩
  · refine ⟨⟨?_, ?_⟩, h.alone, ?_, h.closing⟩
    · intro d' f hf hlen hpos'
      by_cases hd : d' = d
      · subst hd
        omega
      · exact h.hashes d' f (by simpa [hd] using hf) hlen hpos'
    · intro d' hd'
      obtain rfl : d = d' := by simpa using hd'
      exact ⟨DiskCache.opened (size d) (s.files d), by simp, by omega⟩
    · intro j a ha
      have hne : a.w.d ≠ d := halone a (List.mem_of_getElem? ha)
      simpa [hne] using h.written j a ha
  · -- the stat found no file of the right size
    have hshort : ((DiskCache.opened (size d) (s.files d)).length : Int) < size d := by
      unfold DiskCache.opened at hopened ⊢
      split at hopened
      · simp
        omega
      · rename_i f hf
        have : (f.length : Int) ≠ size d := by simpa [hf] using hstat
        split_ifs at hopened ⊢ <;> simp at hopened ⊢ <;> omega
    have hget : ∀ (j : Nat) a, (s.calls ++ [⟨⟨size d, d, [], 0, none⟩, .copying⟩])[j]? = some a →
        s.calls[j]? = some a ∨ j = s.calls.length ∧ a = ⟨⟨size d, d, [], 0, none⟩, .copying⟩ := by
      intro j a ha
      rw [List.getElem?_append] at ha
      split_ifs at ha with hj
      · exact .inl ha
      · rw [List.getElem?_singleton] at ha
        split_ifs at ha with hj0
        · exact .inr ⟨by omega, by simpa [eq_comm] using ha⟩
    refine ⟨⟨?_, by simp⟩, ?_, ?_, ?_⟩
    · intro d' f hf hlen hpos'
      by_cases hd : d' = d
      · subst hd
        obtain rfl : DiskCache.opened (size d') (s.files d') = f := by simpa using hf
        omega
      · exact h.hashes d' f (by simpa [hd] using hf) hlen hpos'
    · intro j k a b ha hb hab
      obtain ha' | ⟨rfl, rfl⟩ := hget j a ha <;> obtain hb' | ⟨rfl, rfl⟩ := hget k b hb
      · exact h.alone _ _ _ _ ha' hb' hab
      · exact absurd hab (halone a (List.mem_of_getElem? ha'))
      · exact absurd hab.symm (halone b (List.mem_of_getElem? hb'))
      · rfl
    · intro j a ha
      obtain ha' | ⟨rfl, rfl⟩ := hget j a ha
      · have hne : a.w.d ≠ d := halone a (List.mem_of_getElem? ha')
        simpa [hne] using h.written j a ha'
      · exact ⟨_, by simp, ⟨rfl, by simp, by simp, hopened, fun _ => hshort⟩⟩
    · intro j a ha
      obtain ha' | ⟨rfl, rfl⟩ := hget j a ha
      · exact h.closing j a ha'
      · simp

theorem Kept.step {e : Event δ} {s' : DiskCache δ} (h : Kept sum size s) (hok : InTurn size s e)
    (hs : s.step sum e = some s') : Kept sum size s' := by
  cases e with
  | put d sz openErr =>
    obtain ⟨rfl, hpos, halone⟩ := hok
    obtain rfl : s.put d (size d) openErr = s' := by simpa [DiskCache.step] using hs
    exact h.put hpos halone openErr
  | write i p k =>
    simp only [DiskCache.step] at hs
    split at hs
    · rename_i c hc
      split_ifs at hs with hk
      obtain rfl := Option.some.inj hs
      exact h.write hc hk.2
    · simp at hs
  | eof i =>
    simp only [DiskCache.step] at hs
    split at hs
    · rename_i c hc
      split_ifs at hs
      obtain rfl := Option.some.inj hs
      exact h.eof hc
    · simp at hs
  | readErr i =>
    simp only [DiskCache.step] at hs
    split at hs
    · rename_i c hc
      split_ifs at hs
      obtain rfl := Option.some.inj hs
      exact h.readErr hc
    · simp at hs
  | truncate i done =>
    simp only [DiskCache.step] at hs
    split at hs
    · rename_i c hc
      split at hs
      · obtain rfl := Option.some.inj hs
        exact h.truncate hc _ done
      · simp at hs
    · simp at hs
  | close i closeErr removed =>
    simp only [DiskCache.step] at hs
    split at hs
    · rename_i c hc
      split_ifs at hs with hphase
      obtain rfl := Option.some.inj hs
      exact h.close hc hphase closeErr removed
    · simp at hs
  | crash =>
    obtain rfl := Option.some.inj hs
    exact ⟨⟨h.hashes, by simp⟩, by simp, by simp, by simp⟩

/-- In every run of `Put` calls in which each digest comes with one size, and the calls of one digest
take turns, a file of the size of its blob has the content of its blob, and a `Put` that returns no
error leaves a file of that size. -/
theorem put_trusted (sum : Bytes → δ) (size : δ → Int) {s : DiskCache δ}
    (h : Reaches (DiskCache.step · sum) (InTurn size) (· = DiskCache.empty) s) : Trusted sum size s := by
  have hkept : Kept sum size s := by
    refine h.invariant ?_ ?_
    · rintro _ rfl
      exact kept_empty sum size
    · intro s e s' hs hok hstep
      exact hs.step hok hstep
  exact hkept.toTrusted

def lengths (d : Bytes) : Int := d.length

/-- The process is killed after the first byte, and the second call overwrites what it left. -/
def killedRun : List (Event Bytes) :=
  [.put [1, 2] 2 false, .write 0 [7] 1, .crash, .put [1, 2] 2 false, .write 0 [1] 1, .write 0 [2] 1, .eof 0,
    .close 0 false false]

theorem killedRun_trusted :
    let s := (exec (DiskCache.step · plain) DiskCache.empty killedRun).get (by decide)
    s.returned = some ([1, 2], none) ∧ Trusted plain lengths s := by
  refine ⟨by decide, put_trusted plain lengths ?_⟩
  exact reaches_of_exec (Reaches.init rfl) (by decide) (Option.some_get _).symm

def negative (_ : Bytes) : Int := -1

/-- Two calls of one digest at the same time. The second reader has another content. -/
def overlappingRun : List (Event Bytes) :=
  [.put [1, 2] 2 false, .put [1, 2] 2 false, .write 0 [1] 1, .write 0 [2] 1, .write 1 [9] 1]

/-- An empty reader for a blob of a negative size returns no error, and leaves a file of size 0. -/
def negativeRun : List (Event Bytes) := [.put [] (-1) false, .eof 0, .close 0 false false]

theorem overlappingRun_untrusted :
    (let s := (exec (DiskCache.step · plain) DiskCache.empty overlappingRun).get (by decide);
      Reaches (DiskCache.step · plain) (OneSize lengths) (· = DiskCache.empty) s ∧ ¬ Trusted plain lengths s) ∧
    (let s := (exec (DiskCache.step · plain) DiskCache.empty negativeRun).get (by decide);
      Reaches (DiskCache.step · plain) (OneSize negative) (· = DiskCache.empty) s ∧ ¬ Trusted plain negative s) := by
  refine ⟨⟨?_, ?_⟩, ?_, ?_⟩
  · exact reaches_of_exec (Reaches.init rfl) (by decide) (Option.some_get _).symm
  · intro h
    exact absurd (h.hashes [1, 2] [9, 2] (by decide) (by decide) (by decide)) (by decide)
  · exact reaches_of_exec (Reaches.init rfl) (by decide) (Option.some_get _).symm
  · intro h
    obtain ⟨f, -, hlen⟩ := h.sized [] (by decide)
    simp [negative] at hlen

end Xdragon.Blob
