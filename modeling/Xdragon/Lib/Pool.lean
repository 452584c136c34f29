import Mathlib.Algebra.BigOperators.Group.Finset.Piecewise
import Mathlib.Algebra.Order.BigOperators.Group.Finset
import Mathlib.Data.List.AList

/-!
# A pool of shared slots

Users hold slots of a fixed pool, and several users may hold the same one.
Each slot has a reference count, and a slot that nobody holds is on the free list.
-/

namespace Xdragon.Lib

structure Pool (ι : Type*) [DecidableEq ι] where
  slot : AList (fun _ : ι => Nat)
  count : List Int
  free : List Nat

namespace Pool

variable {ι : Type*} [DecidableEq ι]

/-! ## Operations -/

/-- Takes the last free slot. -/
def take (p : Pool ι) : Option (Nat × Pool ι) :=
  p.free.getLast?.map fun k => (k, { p with free := p.free.dropLast })

/-- Gives `i` a slot of its own. -/
def assign (p : Pool ι) (i : ι) (k : Nat) : Pool ι :=
  { p with slot := p.slot.insert i k, count := p.count.set k 1 }

/-- One user less for slot `k`. -/
def lower (p : Pool ι) (k : Nat) : Pool ι := { p with count := p.count.set k (p.count.getD k 0 - 1) }

/-- One user less for slot `k`, which goes to the free list with its last user. -/
def release (p : Pool ι) (k : Nat) : Pool ι :=
  if p.count.getD k 0 - 1 ≤ 0 then { p with count := p.count.set k 0, free := p.free ++ [k] }
  else p.lower k

def leave (p : Pool ι) (i : ι) : Pool ι := { p with slot := p.slot.erase i }

/-- `i` joins the users of slot `k`. -/
def share (p : Pool ι) (i : ι) (k : Nat) : Pool ι :=
  { p with slot := p.slot.insert i k, count := p.count.set k (p.count.getD k 0 + 1) }

/-! ## The invariant -/

/-- How many users hold slot `k`. -/
def users (m : AList (fun _ : ι => Nat)) (k : Nat) : Nat := m.entries.countP fun e => e.2 = k

/-- The counts are the numbers of users, and the free slots are those without users. -/
structure Exact (p : Pool ι) (n : Nat) : Prop where
  length : p.count.length = n
  valid : ∀ i k, p.slot.lookup i = some k → k < n
  counts : ∀ k < n, p.count[k]? = some (users p.slot k : Int)
  nodup : p.free.Nodup
  free : ∀ k, k ∈ p.free ↔ k < n ∧ users p.slot k = 0

theorem mem_entries {m : AList (fun _ : ι => Nat)} {i : ι} {k : Nat} :
    m.lookup i = some k ↔ (⟨i, k⟩ : Sigma fun _ : ι => Nat) ∈ m.entries :=
  AList.mem_lookup_iff

theorem users_pos {m : AList (fun _ : ι => Nat)} {i : ι} {k : Nat} (h : m.lookup i = some k) :
    0 < users m k :=
  List.countP_pos_iff.mpr ⟨⟨i, k⟩, mem_entries.mp h, by simp⟩

theorem users_eq_zero {m : AList (fun _ : ι => Nat)} {k : Nat} :
    users m k = 0 ↔ ∀ i, m.lookup i ≠ some k := by
  rw [users, List.countP_eq_zero]
  constructor
  · intro h i hi
    exact h ⟨i, k⟩ (mem_entries.mp hi) (by simp)
  · rintro h ⟨i, k'⟩ he hk
    simp only [decide_eq_true_eq] at hk
    subst hk
    exact h i (mem_entries.mpr he)

theorem users_insert (m : AList (fun _ : ι => Nat)) (i : ι) (k k' : Nat) :
    users (m.insert i k) k' = users (m.erase i) k' + if k = k' then 1 else 0 := by
  simp only [users, AList.entries_insert, List.countP_cons, decide_eq_true_eq]
  rfl

theorem users_erase_none {m : AList (fun _ : ι => Nat)} {i : ι} (h : m.lookup i = none) (k : Nat) :
    users (m.erase i) k = users m k := by
  have hi : i ∉ m.entries.keys := AList.lookup_eq_none.mp h
  have herase : (m.erase i).entries = m.entries := List.kerase_of_notMem_keys hi
  simp only [users, herase]

/-- Without `i`, its slot has one user less. -/
theorem users_erase_some {m : AList (fun _ : ι => Nat)} {i : ι} {k : Nat} (h : m.lookup i = some k)
    (k' : Nat) : users (m.erase i) k' + (if k = k' then 1 else 0) = users m k' := by
  have hk : i ∈ m.entries.keys := AList.lookup_isSome.mp (by rw [h]; rfl)
  obtain ⟨k₁, l₁, l₂, hl₁, he, hke⟩ := List.exists_of_kerase hk
  have hk₁ : k₁ = k := by
    have : m.lookup i = some k₁ := by
      rw [mem_entries, he]
      simp
    exact Option.some.inj (this.symm.trans h)
  subst hk₁
  have herase : (m.erase i).entries = l₁ ++ l₂ := hke
  rw [users, users, herase, he]
  simp only [List.countP_append, List.countP_cons, decide_eq_true_eq]
  omega

/-! ## The operations keep the counts -/

section
variable {p : Pool ι} {n : Nat}

theorem Exact.getD_count (h : p.Exact n) {k : Nat} (hk : k < n) :
    p.count.getD k 0 = users p.slot k := by
  rw [List.getD_eq_getElem?_getD, h.counts k hk]
  rfl

theorem take_spec (h : p.Exact n) {k : Nat} {p' : Pool ι} (ht : p.take = some (k, p')) :
    k < n ∧ users p.slot k = 0 ∧ p.free = p'.free ++ [k] ∧ p' = { p with free := p'.free } := by
  simp only [take, Option.map_eq_some_iff, Prod.mk.injEq] at ht
  obtain ⟨k', hl, rfl, rfl⟩ := ht
  have hf : p.free = p.free.dropLast ++ [k'] := by
    have hne : p.free ≠ [] := by
      intro he
      rw [he] at hl
      cases hl
    rw [List.getLast?_eq_getLast_of_ne_nil hne, Option.some.injEq] at hl
    rw [← hl, List.dropLast_append_getLast hne]
  have hm : k' ∈ p.free := by
    rw [hf]
    simp
  exact ⟨((h.free k').mp hm).1, ((h.free k').mp hm).2, hf, rfl⟩

/-- A user without a slot gets a free one. -/
theorem Exact.fresh (h : p.Exact n) {i : ι} (hi : p.slot.lookup i = none) {k : Nat} {p' : Pool ι}
    (ht : p.take = some (k, p')) : (p'.assign i k).Exact n := by
  obtain ⟨hk, hz, hfree, hp'⟩ := take_spec h ht
  have hslot : p'.slot = p.slot := by rw [hp']
  have hcount : p'.count = p.count := by rw [hp']
  have hnd : (p'.free ++ [k]).Nodup := hfree ▸ h.nodup
  have hu : ∀ k', users (p.slot.insert i k) k' = users p.slot k' + if k = k' then 1 else 0 :=
    fun k' => by rw [users_insert, users_erase_none hi]
  refine ⟨?_, ?_, ?_, ?_, ?_⟩ <;> simp only [assign, hslot, hcount]
  · rw [List.length_set, h.length]
  · intro j k' hj
    by_cases hji : j = i
    · subst hji
      rw [AList.lookup_insert, Option.some.injEq] at hj
      exact hj ▸ hk
    · rw [AList.lookup_insert_ne hji] at hj
      exact h.valid j k' hj
  · intro k' hk'
    rw [List.getElem?_set, hu]
    by_cases he : k = k'
    · subst he
      simp [h.length, hk, hz]
    · simp [he, h.counts k' hk']
  · exact hnd.of_append_left
  · intro k'
    rw [hu]
    have hmem := h.free k'
    rw [hfree, List.mem_append, List.mem_singleton] at hmem
    by_cases he : k = k'
    · subst he
      have : k ∉ p'.free := fun hm => (List.nodup_append.mp hnd).2.2 k hm k (by simp) rfl
      simp [this]
    · simp only [he, if_false, Nat.add_zero]
      rw [← hmem]
      exact ⟨Or.inl, fun h' => h'.resolve_right (Ne.symm he)⟩

/-- A user lets go of its slot. -/
theorem Exact.drop (h : p.Exact n) {i : ι} {k : Nat} (hi : p.slot.lookup i = some k) :
    ((p.release k).leave i).Exact n := by
  have hk := h.valid i k hi
  have hc := h.getD_count hk
  have hpos := users_pos hi
  have hu := users_erase_some hi
  have hvalid : ∀ j k', (p.slot.erase i).lookup j = some k' → k' < n := by
    intro j k' hj
    by_cases hji : j = i
    · rw [hji, AList.lookup_erase] at hj
      cases hj
    · rw [AList.lookup_erase_ne hji] at hj
      exact h.valid j k' hj
  have hcounts : ∀ k' < n, (p.count.set k (users (p.slot.erase i) k : Int))[k']? =
      some (users (p.slot.erase i) k' : Int) := by
    intro k' hk'
    rw [List.getElem?_set]
    by_cases he : k = k'
    · subst he
      simp [h.length, hk]
    · have := hu k'
      simp only [he, if_false, Nat.add_zero] at this
      simp [he, h.counts k' hk', this]
  have hk' := hu k
  simp only [if_true] at hk'
  unfold release leave lower
  split
  · have hz : users (p.slot.erase i) k = 0 := by omega
    rw [hz] at hcounts
    refine ⟨by simp only [List.length_set, h.length], hvalid, hcounts, ?_, ?_⟩
    · refine List.nodup_append.mpr ⟨h.nodup, by simp, ?_⟩
      intro a ha b hb hab
      rw [List.mem_singleton] at hb
      rw [hab, hb, h.free k] at ha
      omega
    · intro k'
      have := hu k'
      rw [List.mem_append, List.mem_singleton, h.free k']
      by_cases he : k = k'
      · subst he
        simp [hk, hz]
      · simp only [he, if_false, Nat.add_zero] at this
        rw [this]
        exact ⟨fun h' => h'.resolve_right (Ne.symm he), Or.inl⟩
  · have hl : p.count.getD k 0 - 1 = (users (p.slot.erase i) k : Int) := by omega
    simp only [hl]
    refine ⟨by simp only [List.length_set, h.length], hvalid, hcounts, h.nodup, ?_⟩
    intro k'
    have := hu k'
    rw [h.free k']
    by_cases he : k = k'
    · subst he
      have h1 : users p.slot k ≠ 0 := by omega
      have h2 : users (p.slot.erase i) k ≠ 0 := by omega
      simp [h1, h2]
    · simp only [he, if_false, Nat.add_zero] at this
      rw [this]

/-- A user without a slot joins the users of a slot in use. -/
theorem Exact.share (h : p.Exact n) {i j : ι} {k : Nat} (hi : p.slot.lookup i = some k)
    (hj : p.slot.lookup j = none) : (p.share j k).Exact n := by
  have hk := h.valid i k hi
  have hc := h.getD_count hk
  have hpos := users_pos hi
  have hu : ∀ k', users (p.slot.insert j k) k' = users p.slot k' + if k = k' then 1 else 0 :=
    fun k' => by rw [users_insert, users_erase_none hj]
  unfold Pool.share
  refine ⟨by simp only [List.length_set, h.length], ?_, ?_, h.nodup, ?_⟩
  · intro l k' hl
    by_cases hlj : l = j
    · subst hlj
      rw [AList.lookup_insert, Option.some.injEq] at hl
      exact hl ▸ hk
    · rw [AList.lookup_insert_ne hlj] at hl
      exact h.valid l k' hl
  · intro k' hk'
    simp only
    rw [List.getElem?_set, hu]
    by_cases he : k = k'
    · subst he
      rw [if_pos rfl, if_pos (by rw [h.length]; exact hk), hc]
      simp
    · simp [he, h.counts k' hk']
  · intro k'
    rw [h.free k', hu]
    by_cases he : k = k'
    · subst he
      omega
    · simp [he]

/-- A user of a shared slot moves to a free one. -/
theorem Exact.detach (h : p.Exact n) {i : ι} {k k' : Nat} {p' : Pool ι} (hi : p.slot.lookup i = some k)
    (hshared : 1 < p.count.getD k 0) (ht : p.take = some (k', p')) :
    ((p'.lower k).assign i k').Exact n := by
  have hd := h.drop hi
  have hrel : p.release k = p.lower k := if_neg (by omega)
  rw [hrel] at hd
  obtain ⟨-, -, -, hp'⟩ := take_spec h ht
  have ht' : ((p.lower k).leave i).take = some (k', (p'.lower k).leave i) := by
    rw [hp']
    simp only [take, Option.map_eq_some_iff, Prod.mk.injEq, leave, lower] at ht ⊢
    obtain ⟨l, hl, rfl, rfl⟩ := ht
    exact ⟨l, hl, rfl, rfl⟩
  have hf := hd.fresh (AList.lookup_erase i p.slot) ht'
  have hsame : ((p'.lower k).leave i).assign i k' = (p'.lower k).assign i k' := by
    simp only [assign, leave]
    congr 1
    apply AList.ext
    rw [AList.entries_insert_of_notMem fun hm => (AList.mem_erase.mp hm).1 rfl]
    rfl
  rwa [hsame] at hf

end

/-! ## There is always room -/

theorem sum_users {m : AList (fun _ : ι => Nat)} {n : Nat} (h : ∀ i k, m.lookup i = some k → k < n) :
    ∑ k ∈ Finset.range n, users m k = m.entries.length := by
  have hall : ∀ e ∈ m.entries, e.2 < n := fun e he => h e.1 e.2 (mem_entries.mpr he)
  unfold users
  generalize m.entries = l at hall
  induction l with
  | nil => simp
  | cons e l ih =>
    have he := hall e (by simp)
    simp only [List.countP_cons, Finset.sum_add_distrib, List.length_cons, decide_eq_true_eq]
    rw [ih fun e' he' => hall e' (by simp [he']), Finset.sum_ite_eq]
    simp [he]

/-- With every slot in use there are at least as many users as slots. -/
theorem Exact.full {p : Pool ι} {n : Nat} (h : p.Exact n) (hfull : p.take = none) :
    n ≤ p.slot.entries.length ∧ ∀ k < n, 1 < users p.slot k → n < p.slot.entries.length := by
  have hempty : p.free = [] := by
    simpa [take] using hfull
  have hone : ∀ k < n, 1 ≤ users p.slot k := by
    intro k hk
    have := (h.free k).not.mp (by rw [hempty]; exact List.not_mem_nil)
    omega
  rw [← sum_users h.valid]
  constructor
  · calc n = ∑ _k ∈ Finset.range n, 1 := by simp
      _ ≤ _ := Finset.sum_le_sum fun k hk => hone k (Finset.mem_range.mp hk)
  · intro k hk hlt
    calc n = ∑ _k ∈ Finset.range n, 1 := by simp
      _ < _ := Finset.sum_lt_sum (fun k hk => hone k (Finset.mem_range.mp hk)) ⟨k, by simpa using hk, hlt⟩

/-- A pool with no more users than slots. -/
def Within (p : Pool ι) (ids : Finset ι) : Prop := ∀ i k, p.slot.lookup i = some k → i ∈ ids

theorem Within.length_le {p : Pool ι} {ids : Finset ι} (h : p.Within ids) :
    p.slot.entries.length ≤ ids.card := by
  have hsub : p.slot.keys.toFinset ⊆ ids := by
    intro i hi
    rw [List.mem_toFinset] at hi
    obtain ⟨k, hk⟩ := Option.isSome_iff_exists.mp (AList.lookup_isSome.mpr hi)
    exact h i k hk
  have := Finset.card_le_card hsub
  rw [List.toFinset_card_of_nodup p.slot.keys_nodup] at this
  simpa [AList.keys, List.keys] using this

/-- A user without a slot finds a free one, when there are no more users than slots. -/
theorem Exact.room_fresh {p : Pool ι} {n : Nat} {ids : Finset ι} (h : p.Exact n) (hw : p.Within ids)
    (hcard : ids.card ≤ n) {i : ι} (hi : i ∈ ids) (hn : p.slot.lookup i = none) : p.take ≠ none := by
  intro hfull
  have hle := (h.full hfull).1
  have hw' : p.Within (ids.erase i) := by
    intro j k hj
    refine Finset.mem_erase.mpr ⟨?_, hw j k hj⟩
    rintro rfl
    rw [hn] at hj
    cases hj
  have := hw'.length_le
  rw [Finset.card_erase_of_mem hi] at this
  have := Finset.card_pos.mpr ⟨i, hi⟩
  omega

/-- So does a user of a shared slot. -/
theorem Exact.room_detach {p : Pool ι} {n : Nat} {ids : Finset ι} (h : p.Exact n) (hw : p.Within ids)
    (hcard : ids.card ≤ n) {i : ι} {k : Nat} (hi : p.slot.lookup i = some k)
    (hshared : 1 < p.count.getD k 0) : p.take ≠ none := by
  intro hfull
  have hk := h.valid i k hi
  have hc := h.getD_count hk
  have hlt := (h.full hfull).2 k hk (by omega)
  have := hw.length_le
  omega

end Pool

end Xdragon.Lib
