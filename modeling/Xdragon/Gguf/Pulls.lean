import Xdragon.Gguf.Lazy

/-!
# What the lazy reader answers

The file stays between two values of its header, whatever is called, and each call has the answer of the whole
header.
-/

open Xdragon.Lib

namespace Xdragon.Gguf

/-! ## Values -/

theorem scalarType_tag (t : ScalarType) : scalarType t.tag = some t := by
  cases t <;> rfl

theorem reads_number (width : Nat) {n : Nat} (hn : n < 256 ^ width) : Reads (readNumber width) (toLittle width n) n :=
  Reads.number _ _ hn

theorem reads_scalar (t : ScalarType) (v : t.Carrier) : Reads (read t) (encodeScalar t v) v := by
  have := (reads_number t.size (t.toNumber_lt v)).bind_pure (f := t.ofNumber)
  rwa [ScalarType.ofNumber_toNumber] at this

theorem reads_string {s : Bytes} (hs : s.length < 2 ^ 63) : Reads readString (encodeString s) s := by
  refine (reads_number 8 (by omega)).bind ?_
  rw [if_neg (by omega)]
  exact Reads.bytes _ _

theorem reads_arrayData {α : Type} {p : Reader ReadError α} (enc : α → Bytes) {as : List α} (has : as.length < 2 ^ 63)
    (hp : ∀ a ∈ as, Reads p (enc a) a) : Reads (readArrayData p as.length) (as.flatMap enc) as := by
  unfold readArrayData
  rw [if_neg (by omega)]
  exact Reads.times enc hp

theorem reads_array {t : ScalarType} {vs : List t.Carrier} (hvs : vs.length < 2 ^ 63) :
    Reads readArray (toLittle 4 t.tag ++ (toLittle 8 vs.length ++ vs.flatMap (encodeScalar t))) (.array t vs) := by
  refine (reads_number 4 t.tag_lt).bind ((reads_number 8 (by omega)).bind ?_)
  rw [scalarType_tag]
  exact (reads_arrayData _ hvs fun v _ => reads_scalar t v).bind_pure

theorem reads_strings {vs : List Bytes} (hvs : (Datum.strings vs).Small) :
    Reads readArray (toLittle 4 8 ++ (toLittle 8 vs.length ++ vs.flatMap encodeString)) (.strings vs) := by
  have hlen := hvs.1
  refine (reads_number 4 (by decide)).bind ((reads_number 8 (by omega)).bind ?_)
  exact (reads_arrayData _ hlen fun s hs => reads_string (hvs.2 s hs)).bind_pure

def KeyValue.encode (kv : KeyValue) : Bytes := encodeString kv.key ++ (kv.value.map Datum.encode).getD []

theorem reads_keyValue {key : Bytes} {d : Datum} (hkey : key.length < 2 ^ 63) (hsmall : d.Small) :
    Reads readKeyValue (KeyValue.encode { key := key, value := some d }) { key := key, value := some d } := by
  refine (reads_string hkey).bind ?_
  cases d with
  | scalar t v =>
    refine (reads_number 4 t.tag_lt).bind ?_
    rw [scalarType_tag]
    exact (reads_scalar t v).bind_pure
  | string s =>
    refine (reads_number 4 (by decide)).bind ?_
    exact (reads_string hsmall).bind_pure
  | array t vs =>
    refine (reads_number 4 (by decide)).bind ?_
    exact (reads_array hsmall).bind_pure
  | strings vs =>
    refine (reads_number 4 (by decide)).bind ?_
    exact (reads_strings hsmall).bind_pure

theorem reads_tensor {t : TensorInfo} (hname : t.name.length < 2 ^ 63) (hdims : t.shape.length < 2 ^ 32) :
    Reads readTensor t.encode t := by
  refine (reads_string hname).bind ((reads_number 4 (by omega)).bind ?_)
  refine (Reads.times _ fun n _ => reads_scalar .uint64 n).bind ?_
  exact (reads_scalar .uint32 t.kind).bind (reads_scalar .uint64 t.offset).bind_pure

/-! ## One sequence -/

theorem BufferedReader.run_reads {α : Type} {p : Reader ReadError α} {bs rest : Bytes} {a : α} (hp : Reads p bs a)
    {r : BufferedReader} (hr : r.rest = bs ++ rest) :
    r.run p = some (.ok a, { offset := r.offset + bs.length, rest := rest }) := by
  unfold run
  rw [hr, hp, List.length_append]
  simp only [Option.map_some, Nat.add_sub_cancel]

/-- The values of a sequence that were read are the first ones of the whole. -/
structure Part {α : Type} (full : List α) (g : Lazy α) : Prop where
  count : g.count = full.length
  values : g.values = full.take g.values.length
  done : g.done = true → g.values = full

namespace Part

variable {α : Type} {full : List α} {g : Lazy α} (h : Part full g)
include h

theorem length_le : g.values.length ≤ full.length := by
  have := congrArg List.length h.values
  rw [List.length_take] at this
  omega

theorem getElem? {i : Nat} (hi : i < g.values.length) : g.values[i]? = full[i]? := by
  have := congrArg (·[i]?) h.values
  rw [List.getElem?_take, if_pos hi] at this
  exact this

theorem push {a : α} (ha : full[g.values.length]? = some a) : Part full { g with values := g.values ++ [a] } := by
  have hvalues : g.values ++ [a] = full.take (g.values.length + 1) := by
    rw [List.take_add_one, ha, ← h.values]
    rfl
  refine ⟨h.count, ?_, fun hdone => ?_⟩
  · rw [List.length_append, List.length_singleton]
    exact hvalues
  · have hall := h.done hdone
    rw [hall, List.getElem?_eq_none (Nat.le_refl _)] at ha
    cases ha

theorem finish (hall : g.values = full) : Part full { g with done := true } := ⟨h.count, h.values, fun _ => hall⟩

end Part

/-- What a pull does to a sequence whose next bytes are those of the values that are left. -/
inductive Nexted {α : Type} (full : List α) (enc : α → Bytes) (tail : Bytes) (g : Lazy α) (r : BufferedReader) :
    Lazy α × BufferedReader × Pulled α → Prop
  | value (a : α) : full[g.values.length]? = some a → g.done = false →
    Nexted full enc tail g r ({ g with values := g.values ++ [a] },
      { offset := r.offset + (enc a).length, rest := (full.drop (g.values.length + 1)).flatMap enc ++ tail }, .value a)
  | complete : g.values = full → g.done = false → Nexted full enc tail g r ({ g with done := true }, r, .complete)
  | stopped : g.values = full → g.done = true → Nexted full enc tail g r (g, r, .stopped)

theorem next_cases {α : Type} {full : List α} {enc : α → Bytes} {tail : Bytes} {g : Lazy α} {r : BufferedReader}
    {fn : Reader ReadError α} (h : Part full g) (hfn : ∀ a ∈ full, Reads fn (enc a) a)
    (hr : g.done = false → r.rest = (full.drop g.values.length).flatMap enc ++ tail) :
    ∃ out, g.next fn r = some out ∧ Nexted full enc tail g r out := by
  have hle := h.length_le
  unfold Lazy.next
  cases hdone : g.done with
  | true =>
    rw [if_pos rfl]
    exact ⟨_, rfl, .stopped (h.done hdone) hdone⟩
  | false =>
    rw [if_neg (by simp)]
    by_cases hlt : g.values.length < g.count
    · have hcount := hlt
      rw [h.count] at hlt
      have ha := List.getElem?_eq_getElem hlt
      have hrest := hr hdone
      rw [List.drop_eq_getElem_cons hlt, List.flatMap_cons, List.append_assoc] at hrest
      rw [if_pos hcount, BufferedReader.run_reads (hfn _ (List.getElem_mem hlt)) hrest]
      refine ⟨_, rfl, ?_⟩
      rw [← hdone]
      exact .value _ ha hdone
    · rw [if_neg hlt]
      rw [h.count] at hlt
      refine ⟨_, rfl, .complete ?_ hdone⟩
      rw [h.values]
      exact List.take_of_length_le (by omega)

/-! ## The file -/

def Header.items (h : Header) : List KeyValue := h.kvs.map fun kv => { key := kv.1, value := some kv.2 }

theorem Header.items_encode (h : Header) : h.items.flatMap KeyValue.encode = h.kvs.flatMap encodeKeyValue := by
  rw [items, List.flatMap_map]
  rfl

theorem Header.WellFormed.reads_items {h : Header} (hwf : h.WellFormed) :
    ∀ kv ∈ h.items, Reads readKeyValue kv.encode kv := by
  intro kv hkv
  obtain ⟨e, he, rfl⟩ := List.mem_map.mp hkv
  exact reads_keyValue (hwf.kv he).1 (hwf.kv he).2

theorem Header.WellFormed.reads_tensors {h : Header} (hwf : h.WellFormed) :
    ∀ t ∈ h.tensors, Reads readTensor t.encode t := fun t ht => reads_tensor (hwf.name ht) (hwf.dims t ht)

/-- Where the file is in the header. Tensors are read after all key-values only. -/
structure Tracks (h : Header) (data : Bytes) (f : File) : Prop where
  keyValues : Part h.items f.keyValues
  tensors : Part h.tensors f.tensors
  rest : f.reader.rest = (h.items.drop f.keyValues.values.length).flatMap KeyValue.encode ++
    ((h.tensors.drop f.tensors.values.length).flatMap TensorInfo.encode ++ data)
  offset : f.reader.offset + f.reader.rest.length = h.encode.length + data.length
  order : f.keyValues.done = false → f.tensors.values = [] ∧ f.tensors.done = false
  start : f.tensors.done = true → f.offset = alignUp 32 h.encode.length

/-- The file goes on only. -/
structure Later (f f' : File) : Prop where
  keyValues : f.keyValues.values.length ≤ f'.keyValues.values.length
  tensors : f.tensors.values.length ≤ f'.tensors.values.length
  done : f.keyValues.done = true → f'.keyValues.done = true

theorem Later.refl (f : File) : Later f f := ⟨Nat.le_refl _, Nat.le_refl _, id⟩

theorem Later.trans {f f' f'' : File} (h : Later f f') (h' : Later f' f'') : Later f f'' :=
  ⟨h.keyValues.trans h'.keyValues, h.tensors.trans h'.tensors, fun hd => h'.done (h.done hd)⟩

section
variable {h : Header} (hwf : h.WellFormed) {data : Bytes} {f : File} (hf : Tracks h data f)
include hwf hf

/-! ## Key-values -/

/-- The next key-value of the header. -/
structure NextKeyValue (h : Header) (data : Bytes) (f f' : File) : Prop where
  tracks : Tracks h data f'
  later : Later f f'
  same : f'.tensors = f.tensors
  values : f'.keyValues.values = h.items.take (f.keyValues.values.length + 1)
  done : h.items[f.keyValues.values.length]? = none → f'.keyValues.done = true

theorem nextKeyValue_spec : ∃ f', f.nextKeyValue = some (f', h.items[f.keyValues.values.length]?) ∧
    NextKeyValue h data f f' := by
  obtain ⟨out, hout, hnext⟩ := next_cases hf.keyValues hwf.reads_items fun _ => hf.rest
  unfold File.nextKeyValue
  rw [hout]
  -- after the last value nothing is left
  have hend : f.keyValues.values = h.items → h.items[f.keyValues.values.length]? = none ∧
      f.keyValues.values = h.items.take (f.keyValues.values.length + 1) := by
    intro hall
    rw [hall]
    exact ⟨List.getElem?_eq_none (Nat.le_refl _), (List.take_of_length_le (by omega)).symm⟩
  cases hnext with
  | value kv hkv hdone =>
    obtain ⟨hnone, hopen⟩ := hf.order hdone
    have hpush := hf.keyValues.push hkv
    have hlen : (f.keyValues.values ++ [kv]).length = f.keyValues.values.length + 1 := by simp
    have hvalues := hpush.values
    dsimp only at hvalues
    rw [hlen] at hvalues
    rw [hkv]
    refine ⟨_, rfl, ⟨hpush, hf.tensors, ?_, ?_, fun _ => hf.order hdone, hf.start⟩,
      ⟨?_, Nat.le_refl _, fun hd => ?_⟩, rfl, hvalues, fun hnone => ?_⟩
    · dsimp only
      rw [hlen]
    · have hoff := hf.offset
      have hlt := (List.getElem?_eq_some_iff.mp hkv).1
      rw [hf.rest, List.drop_eq_getElem_cons hlt, List.flatMap_cons, (List.getElem?_eq_some_iff.mp hkv).2] at hoff
      simp only [List.length_append] at hoff ⊢
      omega
    · rw [hlen]
      omega
    · rw [hdone] at hd
      cases hd
    · rw [hkv] at hnone
      cases hnone
  | complete hall hdone =>
    obtain ⟨hnone, htake⟩ := hend hall
    rw [hnone]
    refine ⟨_, rfl, ⟨hf.keyValues.finish hall, hf.tensors, hf.rest, hf.offset, fun hd => (nomatch hd), hf.start⟩,
      ⟨Nat.le_refl _, Nat.le_refl _, fun _ => rfl⟩, rfl, htake, fun _ => rfl⟩
  | stopped hall hdone =>
    obtain ⟨hnone, htake⟩ := hend hall
    rw [hnone]
    exact ⟨_, rfl, hf, Later.refl f, rfl, htake, fun _ => hdone⟩

end

section
variable {h : Header} (hwf : h.WellFormed) {data : Bytes}
include hwf

theorem scanKeyValues_spec (wanted : KeyValue → Bool) {f : File} (hf : Tracks h data f) {n : Nat}
    (hn : h.items.length + 1 - f.keyValues.values.length ≤ n) :
    ∃ f', f.scanKeyValues wanted n = some (f', (h.items.drop f.keyValues.values.length).find? wanted) ∧
      Tracks h data f' ∧ Later f f' ∧ f'.tensors = f.tensors ∧
      ((h.items.drop f.keyValues.values.length).find? wanted = none → f'.keyValues.done = true) := by
  induction n generalizing f with
  | zero =>
    have := hf.keyValues.length_le
    omega
  | succ n ih =>
    obtain ⟨f₁, hnext, hspec⟩ := nextKeyValue_spec hwf hf
    unfold File.scanKeyValues
    rw [hnext]
    cases hkv : h.items[f.keyValues.values.length]? with
    | none =>
      rw [List.drop_eq_nil_of_le (List.getElem?_eq_none_iff.mp hkv)]
      exact ⟨f₁, rfl, hspec.tracks, hspec.later, hspec.same, fun _ => hspec.done hkv⟩
    | some kv =>
      have hlt := (List.getElem?_eq_some_iff.mp hkv).1
      have hlen : f₁.keyValues.values.length = f.keyValues.values.length + 1 := by
        rw [hspec.values, List.length_take]
        omega
      rw [List.drop_eq_getElem_cons hlt, (List.getElem?_eq_some_iff.mp hkv).2, List.find?_cons]
      dsimp only
      cases hw : wanted kv with
      | true => exact ⟨f₁, rfl, hspec.tracks, hspec.later, hspec.same, fun hnone => (nomatch hnone)⟩
      | false =>
        obtain ⟨f', hscan, htracks, hlater, hsame, hdone⟩ := ih hspec.tracks (by omega)
        rw [hlen] at hscan hdone
        exact ⟨f', hscan, htracks, hspec.later.trans hlater, hsame.trans hspec.same, hdone⟩

theorem restKeyValues_spec {f : File} (hf : Tracks h data f) : ∃ f', f.restKeyValues = some f' ∧ Tracks h data f' ∧
    Later f f' ∧ f'.tensors = f.tensors ∧ f'.keyValues.done = true := by
  have hrounds : h.items.length + 1 - f.keyValues.values.length ≤ File.rounds f.keyValues := by
    rw [File.rounds, hf.keyValues.count]
  obtain ⟨f', hscan, htracks, hlater, hsame, hdone⟩ := scanKeyValues_spec hwf (fun _ => false) hf hrounds
  unfold File.restKeyValues
  rw [hscan]
  exact ⟨f', rfl, htracks, hlater, hsame, hdone (by simp)⟩

theorem findKeyValue_spec (key : Bytes) {f : File} (hf : Tracks h data f) : ∃ f',
    f.findKeyValue key = some (f', (h.items.find? (·.key = key)).getD {}) ∧ Tracks h data f' ∧ Later f f' := by
  have hsplit : h.items.find? (·.key = key) = (f.keyValues.values.find? (·.key = key)).or
      ((h.items.drop f.keyValues.values.length).find? (·.key = key)) := by
    conv_lhs => rw [← List.take_append_drop f.keyValues.values.length h.items, ← hf.keyValues.values]
    exact List.find?_append
  unfold File.findKeyValue
  rw [hsplit]
  cases f.keyValues.values.find? (·.key = key) with
  | some kv => exact ⟨f, rfl, hf, Later.refl f⟩
  | none =>
    have hrounds : h.items.length + 1 - f.keyValues.values.length ≤ File.rounds f.keyValues := by
      rw [File.rounds, hf.keyValues.count]
    obtain ⟨f', hscan, htracks, hlater, -, -⟩ := scanKeyValues_spec hwf (·.key = key) hf hrounds
    dsimp only
    rw [hscan]
    exact ⟨f', rfl, htracks, hlater⟩

end

def Header.find (h : Header) (key : Bytes) : KeyValue := (h.items.find? (·.key = key)).getD {}

/-- The answer to `KeyValue`. -/
def Header.keyValue (h : Header) (key : Bytes) : KeyValue :=
  if ¬ ascii "general." <+: key ∧ ¬ ascii "tokenizer." <+: key then
    h.find ((h.find (ascii "general.architecture")).string ++ ascii "." ++ key)
  else h.find key

theorem keyValue_spec {h : Header} (hwf : h.WellFormed) {data : Bytes} (key : Bytes) {f : File} (hf : Tracks h data f) :
    ∃ f', f.keyValue key = some (f', h.keyValue key) ∧ Tracks h data f' ∧ Later f f' := by
  unfold File.keyValue Header.keyValue
  split
  · obtain ⟨f₁, h₁, ht₁, hl₁⟩ := findKeyValue_spec hwf (ascii "general.architecture") hf
    obtain ⟨f₂, h₂, ht₂, hl₂⟩ := findKeyValue_spec hwf
      ((h.find (ascii "general.architecture")).string ++ ascii "." ++ key) ht₁
    rw [h₁]
    exact ⟨f₂, h₂, ht₂, hl₁.trans hl₂⟩
  · exact findKeyValue_spec hwf key hf

/-! ## Tensors -/

/-- When all key-values were read, one is found without reading. -/
theorem findKeyValue_done {h : Header} {f : File} (hpart : Part h.items f.keyValues) (hdone : f.keyValues.done = true)
    (key : Bytes) : f.findKeyValue key = some (f, h.find key) := by
  have hall := hpart.done hdone
  unfold File.findKeyValue Header.find
  rw [hall]
  cases h.items.find? (·.key = key) with
  | some kv => rfl
  | none =>
    have hrounds : File.rounds f.keyValues = 1 := by
      rw [File.rounds, hpart.count, hall]
      omega
    dsimp only
    rw [hrounds, File.scanKeyValues, File.nextKeyValue, Lazy.next, if_pos hdone]
    rfl

/-- Neither a missing alignment nor one that is not a signed number is used. -/
def Header.Unsigned (h : Header) : Prop := (h.find (ascii "general.alignment")).int = 0

theorem success_spec {h : Header} {f : File} (hpart : Part h.items f.keyValues) (hdone : f.keyValues.done = true)
    (halign : h.Unsigned) : f.success = some { f with offset := alignUp 32 f.reader.offset } := by
  have hkey : f.keyValue (ascii "general.alignment") = some (f, h.find (ascii "general.alignment")) := by
    unfold File.keyValue
    rw [if_neg (by decide)]
    exact findKeyValue_done hpart hdone _
  unfold File.success
  rw [hkey]
  dsimp only
  rw [halign, if_neg (by simp)]
  have hmod : (f.reader.offset : Int).tmod 32 = f.reader.offset % 32 := Int.tmod_eq_emod_of_nonneg (by omega)
  rw [hmod, Int.tmod_eq_emod_of_nonneg (by omega)]
  congr 2
  unfold alignUp
  omega

section
variable {h : Header} (hwf : h.WellFormed) (halign : h.Unsigned) {data : Bytes}
include hwf halign

/-- The next tensor of the header. -/
structure NextTensor (h : Header) (data : Bytes) (f f' : File) : Prop where
  tracks : Tracks h data f'
  later : Later f f'
  values : f'.tensors.values = h.tensors.take (f.tensors.values.length + 1)
  done : h.tensors[f.tensors.values.length]? = none → f'.tensors.done = true

theorem nextTensor_spec {f : File} (hf : Tracks h data f) (hkv : f.keyValues.done = true) :
    ∃ f', f.nextTensor = some (f', h.tensors[f.tensors.values.length]?) ∧ NextTensor h data f f' := by
  have hitems : h.items.drop f.keyValues.values.length = [] := by
    rw [hf.keyValues.done hkv]
    exact List.drop_eq_nil_of_le (Nat.le_refl _)
  have hrest := hf.rest
  rw [hitems, List.flatMap_nil, List.nil_append] at hrest
  obtain ⟨out, hout, hnext⟩ := next_cases hf.tensors hwf.reads_tensors fun _ => hrest
  unfold File.nextTensor
  rw [hout]
  have hend : f.tensors.values = h.tensors → h.tensors[f.tensors.values.length]? = none ∧
      f.tensors.values = h.tensors.take (f.tensors.values.length + 1) := by
    intro hall
    rw [hall]
    exact ⟨List.getElem?_eq_none (Nat.le_refl _), (List.take_of_length_le (by omega)).symm⟩
  cases hnext with
  | value t ht hdone =>
    have hpush := hf.tensors.push ht
    have hlen : (f.tensors.values ++ [t]).length = f.tensors.values.length + 1 := by simp
    have hvalues := hpush.values
    dsimp only at hvalues
    rw [hlen] at hvalues
    rw [ht]
    refine ⟨_, rfl, ⟨hf.keyValues, hpush, ?_, ?_, fun hd => ?_, fun hd => ?_⟩,
      ⟨Nat.le_refl _, ?_, id⟩, hvalues, fun hnone => ?_⟩
    · dsimp only
      rw [hlen, hitems]
      rfl
    · have hoff := hf.offset
      have hlt := (List.getElem?_eq_some_iff.mp ht).1
      rw [hrest, List.drop_eq_getElem_cons hlt, List.flatMap_cons, (List.getElem?_eq_some_iff.mp ht).2] at hoff
      simp only [List.length_append] at hoff ⊢
      omega
    · rw [hkv] at hd
      cases hd
    · rw [hdone] at hd
      cases hd
    · rw [hlen]
      omega
    · rw [ht] at hnone
      cases hnone
  | complete hall hdone =>
    obtain ⟨hnone, htake⟩ := hend hall
    have hsuccess := @success_spec h { f with tensors := { f.tensors with done := true } } hf.keyValues hkv halign
    have hoff : f.reader.offset = h.encode.length := by
      have := hf.offset
      rw [hrest, hall, List.drop_eq_nil_of_le (Nat.le_refl _), List.flatMap_nil, List.nil_append] at this
      omega
    rw [hnone]
    dsimp only
    rw [hsuccess]
    refine ⟨_, rfl, ⟨hf.keyValues, hf.tensors.finish hall, hf.rest, hf.offset, fun hd => ?_, fun _ => ?_⟩,
      ⟨Nat.le_refl _, Nat.le_refl _, id⟩, htake, fun _ => rfl⟩
    · rw [hkv] at hd
      cases hd
    · dsimp only
      rw [hoff]
  | stopped hall hdone =>
    obtain ⟨hnone, htake⟩ := hend hall
    rw [hnone]
    exact ⟨_, rfl, hf, Later.refl f, htake, fun _ => hdone⟩

theorem scanTensors_spec (wanted : TensorInfo → Bool) {f : File} (hf : Tracks h data f) (hkv : f.keyValues.done = true)
    {n : Nat} (hn : h.tensors.length + 1 - f.tensors.values.length ≤ n) :
    ∃ f', f.scanTensors wanted n = some (f', (h.tensors.drop f.tensors.values.length).find? wanted) ∧
      Tracks h data f' ∧ Later f f' ∧
      ((h.tensors.drop f.tensors.values.length).find? wanted = none → f'.tensors.done = true) := by
  induction n generalizing f with
  | zero =>
    have := hf.tensors.length_le
    omega
  | succ n ih =>
    obtain ⟨f₁, hnext, hspec⟩ := nextTensor_spec hwf halign hf hkv
    unfold File.scanTensors
    rw [hnext]
    cases ht : h.tensors[f.tensors.values.length]? with
    | none =>
      rw [List.drop_eq_nil_of_le (List.getElem?_eq_none_iff.mp ht)]
      exact ⟨f₁, rfl, hspec.tracks, hspec.later, fun _ => hspec.done ht⟩
    | some t =>
      have hlt := (List.getElem?_eq_some_iff.mp ht).1
      have hlen : f₁.tensors.values.length = f.tensors.values.length + 1 := by
        rw [hspec.values, List.length_take]
        omega
      rw [List.drop_eq_getElem_cons hlt, (List.getElem?_eq_some_iff.mp ht).2, List.find?_cons]
      dsimp only
      cases hw : wanted t with
      | true => exact ⟨f₁, rfl, hspec.tracks, hspec.later, fun hnone => (nomatch hnone)⟩
      | false =>
        obtain ⟨f', hscan, htracks, hlater, hdone⟩ := ih hspec.tracks (hspec.later.done hkv) (by omega)
        rw [hlen] at hscan hdone
        exact ⟨f', hscan, htracks, hspec.later.trans hlater, hdone⟩

theorem restTensors_spec {f : File} (hf : Tracks h data f) (hkv : f.keyValues.done = true) :
    ∃ f', f.restTensors = some f' ∧ Tracks h data f' ∧ Later f f' ∧ f'.tensors.done = true := by
  have hrounds : h.tensors.length + 1 - f.tensors.values.length ≤ File.rounds f.tensors := by
    rw [File.rounds, hf.tensors.count]
  obtain ⟨f', hscan, htracks, hlater, hdone⟩ := scanTensors_spec hwf halign (fun _ => false) hf hkv hrounds
  unfold File.restTensors
  rw [hscan]
  exact ⟨f', rfl, htracks, hlater, hdone (by simp)⟩

/-- The answer to `TensorInfo`. -/
def Header.tensorInfo (h : Header) (name : Bytes) : TensorInfo :=
  (h.tensors.find? (·.name = name)).getD File.noTensor

theorem tensorInfo_spec (name : Bytes) {f : File} (hf : Tracks h data f) : ∃ f',
    f.tensorInfo name = some (f', h.tensorInfo name) ∧ Tracks h data f' ∧ Later f f' ∧
      (f'.keyValues.done = true) ∧ (h.tensors.find? (·.name = name) = none → f'.tensors.done = true) := by
  have hsplit : h.tensors.find? (·.name = name) = (f.tensors.values.find? (·.name = name)).or
      ((h.tensors.drop f.tensors.values.length).find? (·.name = name)) := by
    conv_lhs => rw [← List.take_append_drop f.tensors.values.length h.tensors, ← hf.tensors.values]
    exact List.find?_append
  unfold File.tensorInfo Header.tensorInfo
  rw [hsplit]
  cases hfound : f.tensors.values.find? (·.name = name) with
  | some t =>
    refine ⟨f, rfl, hf, Later.refl f, ?_, fun hnone => (nomatch hnone)⟩
    -- a tensor was read, so all key-values were
    cases hkv : f.keyValues.done with
    | true => rfl
    | false =>
      rw [(hf.order hkv).1] at hfound
      cases hfound
  | none =>
    obtain ⟨f₁, hrest, ht₁, hl₁, hsame, hkv⟩ := restKeyValues_spec hwf hf
    have hrounds : h.tensors.length + 1 - f₁.tensors.values.length ≤ File.rounds f₁.tensors := by
      rw [File.rounds, ht₁.tensors.count]
    obtain ⟨f', hscan, htracks, hlater, hdone⟩ := scanTensors_spec hwf halign (·.name = name) ht₁ hkv hrounds
    rw [hsame] at hscan hdone
    dsimp only
    rw [hrest]
    dsimp only
    rw [hsame, hscan]
    exact ⟨f', rfl, htracks, hl₁.trans hlater, hlater.done hkv, hdone⟩

/-- The answer to `TensorReader`, if the data starts at `start`. -/
def Header.tensorReader (h : Header) (start : Int) (numBytes : TensorInfo → Int) (name : Bytes) :
    Option File.TensorSection :=
  let t := h.tensorInfo name
  if numBytes t = 0 then none
  else some { tensor := t, offset := start + toInt64 t.offset.toNat, length := numBytes t }

theorem tensorReader_spec (numBytes : TensorInfo → Int) (name : Bytes) {f : File} (hf : Tracks h data f) : ∃ f',
    f.tensorReader numBytes name = some (f', h.tensorReader (alignUp 32 h.encode.length) numBytes name) ∧
      Tracks h data f' ∧ Later f f' := by
  obtain ⟨f₁, hinfo, ht₁, hl₁, hkv, -⟩ := tensorInfo_spec hwf halign name hf
  unfold File.tensorReader Header.tensorReader
  rw [hinfo]
  dsimp only
  split
  · exact ⟨f₁, rfl, ht₁, hl₁⟩
  · obtain ⟨f', hrest, ht', hl', hdone⟩ := restTensors_spec hwf halign ht₁ hkv
    rw [hrest]
    refine ⟨f', ?_, ht', hl₁.trans hl'⟩
    rw [Option.map_some, ht'.start hdone]

end

end Xdragon.Gguf
