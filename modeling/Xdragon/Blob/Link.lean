import Xdragon.Blob.Copy
import Xdragon.Registry.Name

/-!
# Links by name

A manifest is linked under a name by a copy of its blob to the file of the name, and the name is resolved by the hash of
this file. The copy is the one that writes blobs, which leaves a file that has the right size.

A digest is given by its bytes. The hash is a parameter, and so is the folding of letter case. The calls come one after
another.
-/

namespace Xdragon.Blob

open Xdragon.Lib

/-! ## Names and digests -/

/-- The text before the last `@` and the text after it. -/
def splitNameDigest (s : Bytes) : Bytes × Bytes := (cutLast (ascii "@") s).getD (s, [])

/-- `none` is the error for an invalid name. -/
def nameToPath (name : Bytes) : Option Bytes :=
  let n := Registry.parse name
  if n.isFullyQualified then some (joinPath [n.h, n.n, n.m, n.t]) else none

def hexValue (c : UInt8) : Option UInt8 :=
  let n := c.toNat
  if 0x30 ≤ n ∧ n ≤ 0x39 then some (c - 0x30)
  else if 0x61 ≤ n ∧ n ≤ 0x66 then some (c - 0x61 + 10)
  else if 0x41 ≤ n ∧ n ≤ 0x46 then some (c - 0x41 + 10)
  else none

/-- `hex.Decode`. -/
def hexDecode : Bytes → Option Bytes
  | [] => some []
  | [_] => none
  | a :: b :: s => do
    let x ← hexValue a
    let y ← hexValue b
    let rest ← hexDecode s
    some ((x * 16 + y) :: rest)

def parseDigest (v : Bytes) : Option Bytes :=
  match v.findIdx? (· ∈ ascii ":-") with
  | none => none
  | some i =>
    if v.take i ≠ ascii "sha256" ∨ (v.drop (i + 1)).length ≠ 64 then none else hexDecode (v.drop (i + 1))

/-! ## The cache -/

/-- The blobs by digest, and the paths and contents of the manifest files in the order of `links`. -/
structure Disk where
  blobs : Bytes → Option Bytes
  manifests : List (Bytes × Bytes)

def Disk.empty : Disk := ⟨fun _ => none, []⟩

/-- `fs.Glob` goes through the directories in order. -/
def globBefore (p q : Bytes) : Bool := decide (p.splitOn slash < q.splitOn slash)

/-- The file of a path is written, and created in its place. -/
def writeManifest (path f : Bytes) : List (Bytes × Bytes) → List (Bytes × Bytes)
  | [] => [(path, f)]
  | m :: ms =>
    if m.1 = path then (path, f) :: ms
    else if globBefore path m.1 then (path, f) :: m :: ms
    else m :: writeManifest path f ms

inductive LinkError
  | invalidName
  /-- The blob cannot be opened, or the directory cannot be made. -/
  | refused
  | copy (e : Error)

inductive ResolveError
  | invalidName
  | invalidDigest
  | notExist
  | read
  | put
  deriving DecidableEq

/-- How much of a manifest `Resolve` reads. -/
def manifestLimit : Nat := 1 <<< 20

namespace Disk

variable (sum : Bytes → Bytes) (fold : Char → Char) (s : Disk)

def links : List Bytes := s.manifests.map (·.1)

/-- The file at a path. -/
def manifest (path : Bytes) : Option Bytes := (s.manifests.find? (·.1 = path)).map (·.2)

def setManifest (path : Bytes) : Option Bytes → Disk
  | none => { s with manifests := s.manifests.filter (·.1 ≠ path) }
  | some f => { s with manifests := writeManifest path f s.manifests }

def manifestPath (name : Bytes) : Option Bytes :=
  match nameToPath name with
  | none => none
  | some np =>
    let maybe := joinPath [ascii "manifests", np]
    some ((s.links.find? (Names.equalFold fold maybe ·)).getD maybe)

def put (d : Bytes) (r : Reader) (size : Int) (o : CopyFaults) : Disk × Option Error :=
  let (f, err) := copyNamedFile sum (s.blobs d) r d size o
  ({ s with blobs := Function.update s.blobs d f }, err)

/-- The blob comes from the reader. -/
def link (name d : Bytes) (r : Reader) (refused : Bool) (o : CopyFaults) : Disk × Option LinkError :=
  match s.manifestPath fold name with
  | none => (s, some .invalidName)
  | some path =>
    match s.blobs d with
    | none => (s, some .refused)
    | some b =>
      if refused then (s, some .refused)
      else
        let (f, err) := copyNamedFile sum (s.manifest path) r d b.length o
        (s.setManifest path f, err.map .copy)

/-- The manifest is put among the blobs, too. -/
def resolve (name : Bytes) (readErr : Bool) (out : Outcome) : Disk × Except ResolveError Bytes :=
  let (name, digest) := splitNameDigest name
  if digest ≠ [] then (s, (parseDigest digest).elim (.error .invalidDigest) .ok)
  else
    match s.manifestPath fold name with
    | none => (s, .error .invalidName)
    | some path =>
      match s.manifest path with
      | none => (s, .error .notExist)
      | some f =>
        if readErr then (s, .error .read)
        else
          let data := f.take manifestLimit
          let (blobs, ok) := putBytes s.blobs (sum data) data out
          ({ s with blobs }, if ok then .ok (sum data) else .error .put)

/-- After a link of the blob, the name gives its digest. -/
def Retrievable (name d b : Bytes) : Prop :=
  if (splitNameDigest name).2 ≠ [] then parseDigest (splitNameDigest name).2 = some d
  else b.length ≤ manifestLimit ∧ ∀ path f, s.manifestPath fold name = some path → s.manifest path = some f →
    f.length = b.length → f = b

end Disk

/-! ## The copy of a manifest -/

/-- The reader gives the blob, or fails on the way. -/
def Reader.Reads (r : Reader) (b : Bytes) : Prop := r.text <+: b ∧ (r.failed = false → r.text = b)

theorem opened_length {size : Int} (hsize : 0 ≤ size) (file : Option Bytes) :
    ((DiskCache.opened size file).length : Int) ≤ size := by
  unfold DiskCache.opened
  split
  · simpa using hsize
  · split
    · simpa using hsize
    · omega

theorem writeAt_zero {f p : Bytes} (h : f.length ≤ p.length) (hp : p ≠ []) : writeAt f 0 p = p := by
  rw [writeAt, if_neg hp, List.drop_eq_nil_of_le (by omega)]
  simp

/-- A file that has the size of the blob is left, any other one gets its content. -/
theorem copyNamedFile_none {sum : Bytes → Bytes} {file : Option Bytes} {r : Reader} {d b : Bytes} {o : CopyFaults}
    (hr : r.Reads b) (h : (copyNamedFile sum file r d b.length o).2 = none) :
    (∃ f, file = some f ∧ f.length = b.length ∧ (copyNamedFile sum file r d b.length o).1 = some f) ∨
    (∀ f, file = some f → f.length ≠ b.length) ∧ (copyNamedFile sum file r d b.length o).1 = some b := by
  unfold copyNamedFile at h ⊢
  by_cases hstat : file.map (fun f => (f.length : Int)) = some (b.length : Int)
  · left
    obtain ⟨f, hf, hlen⟩ := Option.map_eq_some_iff.mp hstat
    exact ⟨f, hf, by omega, by rw [if_pos hstat]; exact hf⟩
  · right
    have hother : ∀ f, file = some f → f.length ≠ b.length := by
      rintro f rfl heq
      exact hstat (by simp [heq])
    have hopened := opened_length (by omega : (0 : Int) ≤ b.length) file
    rw [if_neg hstat] at h ⊢
    by_cases hopen : o.openErr = true
    · rw [if_pos hopen] at h
      cases h
    rw [if_neg hopen] at h ⊢
    by_cases hsize : (b.length : Int) = 0
    · have hb : b = [] := List.eq_nil_of_length_eq_zero (by omega)
      have hnil : DiskCache.opened (b.length : Int) file = [] := List.eq_nil_of_length_eq_zero (by omega)
      rw [if_pos hsize, hnil, hb]
      exact ⟨by rwa [← hb], rfl⟩
    rw [if_neg hsize] at h ⊢
    refine ⟨hother, ?_⟩
    have hfile := @copyLoop_file _ _ sum 0 r.failed r.pieces ⟨b.length, d, [], 0, none⟩
      (DiskCache.opened b.length file)
    have hok := @copyLoop_ok _ _ sum 0 r.failed r.pieces ⟨b.length, d, [], 0, none⟩ (DiskCache.opened b.length file)
    generalize copyLoop sum 0 r.failed r.pieces ⟨b.length, d, [], 0, none⟩ (DiskCache.opened b.length file) = res
      at h hfile hok
    obtain ⟨n, g, err⟩ := res
    cases err with
    | some e => cases h
    | none =>
      dsimp only at h hfile hok ⊢
      by_cases hn : (n : Int) < b.length
      · rw [if_pos hn] at h
        cases h
      by_cases hclose : o.closeErr = true
      · rw [if_neg hn, if_pos hclose] at h
        cases h
      -- all of the blob was read, and is written over what there was
      rw [if_neg hn, if_neg hclose]
      have hread : r.text = b := hr.2 (hok rfl).1
      have hacc := (hok rfl).2.1
      rw [show (r.pieces.map (·.1)).flatten = b from hread] at hacc
      have hne : b ≠ [] := List.ne_nil_of_length_pos (by omega)
      rw [hfile.1, hacc]
      exact congrArg some (writeAt_zero (by omega) hne)

/-! ## The file of a name -/

theorem find_writeManifest {p : Bytes → Bool} {path f : Bytes} {ms : List (Bytes × Bytes)} (hp : p path = true)
    (h : ∀ q, (ms.map (·.1)).find? p = some q → q = path) :
    ((writeManifest path f ms).find? (p ·.1)) = some (path, f) := by
  induction ms with
  | nil => simp [writeManifest, hp]
  | cons m ms ih =>
    unfold writeManifest
    split
    · simp [hp]
    · rename_i hne
      split
      · simp [hp]
      · have hm : p m.1 = false := by
          rw [Bool.eq_false_iff]
          intro hm
          exact hne (h m.1 (by simp [hm]))
        rw [List.find?_cons_of_neg (by simp [hm])]
        refine ih fun q hq => h q ?_
        rw [List.map_cons, List.find?_cons_of_neg (by simp [hm])]
        exact hq

namespace Disk

variable {sum : Bytes → Bytes} {fold : Char → Char} {s : Disk}

/-- What is written at the path of a name is found there, and under the name. -/
theorem manifest_setManifest {name path : Bytes} (f : Bytes) (h : s.manifestPath fold name = some path) :
    (s.setManifest path (some f)).manifestPath fold name = some path ∧
      (s.setManifest path (some f)).manifest path = some f := by
  unfold manifestPath at h ⊢
  cases hnp : nameToPath name with
  | none =>
    rw [hnp] at h
    cases h
  | some np =>
    rw [hnp] at h
    dsimp only at h ⊢
    have hpath := Option.some.inj h
    have hmatch : Names.equalFold fold (joinPath [ascii "manifests", np]) path = true := by
      rw [← hpath]
      cases hfind : s.links.find? (Names.equalFold fold (joinPath [ascii "manifests", np]) ·) with
      | none => exact Names.Name.equalFold_refl fold _
      | some l => exact List.find?_some hfind
    constructor
    · have hfirst : ∀ q, s.links.find? (Names.equalFold fold (joinPath [ascii "manifests", np]) ·) = some q → q = path := by
        intro q hq
        rw [← hpath, hq]
        rfl
      have hfound := find_writeManifest (f := f) hmatch hfirst
      have hlinks : (s.setManifest path (some f)).links = (writeManifest path f s.manifests).map (·.1) := rfl
      rw [hlinks, List.find?_map]
      refine congrArg some ?_
      rw [show (Names.equalFold fold (joinPath [ascii "manifests", np]) ·) ∘ Prod.fst =
        fun m : Bytes × Bytes => Names.equalFold fold (joinPath [ascii "manifests", np]) m.1 from rfl, hfound]
      rfl
    · have hfound : (writeManifest path f s.manifests).find? (fun m => decide (m.1 = path)) = some (path, f) := by
        refine @find_writeManifest (fun q => decide (q = path)) path f s.manifests (decide_eq_true rfl) fun q hq => ?_
        simpa using List.find?_some hq
      have hset : (s.setManifest path (some f)).manifest path =
        ((writeManifest path f s.manifests).find? (·.1 = path)).map (·.2) := rfl
      rw [hset]
      simp [hfound]

/-- A name whose last `@` is its last character is the name without it. -/
theorem manifestPath_split {name path : Bytes} (h : s.manifestPath fold name = some path)
    (hdigest : (splitNameDigest name).2 = []) (s' : Disk) :
    s'.manifestPath fold (splitNameDigest name).1 = s'.manifestPath fold name := by
  rcases Registry.last_cases name (ascii "@") with hnone | ⟨before, c, after, rfl, hc, hafter⟩
  · have hsplit : splitNameDigest name = (name, []) := by
      unfold splitNameDigest
      rw [show ascii "@" = [0x40] from rfl, cutLast_singleton_none fun hmem => hnone _ hmem (by decide)]
      rfl
    rw [hsplit]
  · obtain rfl : c = 0x40 := by simpa [ascii] using hc
    have hsplit : splitNameDigest (before ++ 0x40 :: after) = (before, after) := by
      unfold splitNameDigest
      rw [show ascii "@" = [0x40] from rfl, cutLast_singleton before fun hmem => hafter _ hmem (by decide)]
      rfl
    rw [hsplit] at hdigest ⊢
    dsimp only at hdigest ⊢
    subst hdigest
    -- the name is fully qualified, since it has a path
    have hfull : (Registry.parse (before ++ ascii "@")).isFullyQualified = true := by
      unfold manifestPath nameToPath at h
      apply Classical.byContradiction
      intro hno
      rw [show before ++ [0x40] = before ++ ascii "@" from rfl] at h
      dsimp only at h
      rw [if_neg hno] at h
      cases h
    unfold manifestPath nameToPath
    rw [Registry.parse_at hfull]
    rfl

theorem putBytes_stored (blobs : Bytes → Option Bytes) (d data : Bytes) : (putBytes blobs d data .stored).2 = true := by
  unfold putBytes
  split <;> rfl

/-- What `Resolve` gives for a name with a file. -/
theorem resolve_file {name path f : Bytes} (hdigest : (splitNameDigest name).2 = [])
    (hpath : s.manifestPath fold (splitNameDigest name).1 = some path) (hf : s.manifest path = some f) :
    (s.resolve sum fold name false .stored).2 = .ok (sum (f.take manifestLimit)) := by
  unfold resolve
  generalize splitNameDigest name = p at hdigest hpath
  obtain ⟨name, digest⟩ := p
  dsimp only at hdigest hpath ⊢
  subst hdigest
  rw [if_neg (fun h => h rfl), hpath]
  dsimp only
  rw [hf]
  dsimp only
  rw [if_neg nofun, putBytes_stored]
  rfl

/-- After `Link` returns no error, the file of the name is what it was if it has the size of the blob, and else the
blob. -/
theorem link_none {name d b : Bytes} {r : Reader} {refused : Bool} {o : CopyFaults} (hb : s.blobs d = some b)
    (hr : r.Reads b) (h : (s.link sum fold name d r refused o).2 = none) :
    ∃ path f, s.manifestPath fold name = some path ∧ (s.link sum fold name d r refused o).1 = s.setManifest path (some f) ∧
      ((s.manifest path = some f ∧ f.length = b.length) ∨
        (∀ g, s.manifest path = some g → g.length ≠ b.length) ∧ f = b) := by
  unfold link at h ⊢
  cases hpath : s.manifestPath fold name with
  | none =>
    rw [hpath] at h
    cases h
  | some path =>
    rw [hpath, hb] at h
    dsimp only at h
    rw [hb]
    dsimp only
    cases refused with
    | true =>
      rw [if_pos rfl] at h
      cases h
    | false =>
      rw [if_neg nofun] at h ⊢
      have hcopy : (copyNamedFile sum (s.manifest path) r d b.length o).2 = none := Option.map_eq_none_iff.mp h
      rcases copyNamedFile_none hr hcopy with ⟨f, hf, hlen, hfile⟩ | ⟨hother, hfile⟩
      · exact ⟨path, f, rfl, by rw [← hfile], .inl ⟨hf, hlen⟩⟩
      · exact ⟨path, b, rfl, by rw [← hfile], .inr ⟨hother, rfl⟩⟩

/-- After `Link` returns no error, `Resolve` gives the digest if and only if the name has no other digest, the blob is
not too long, and no other manifest of its size was linked under the name. -/
theorem resolve_link_iff {name d b : Bytes} {r : Reader} {refused : Bool} {o : CopyFaults} (hb : s.blobs d = some b)
    (hd : sum b = d) (hhash : ∀ g, sum g = d → g = b) (hr : r.Reads b)
    (h : (s.link sum fold name d r refused o).2 = none) :
    ((s.link sum fold name d r refused o).1.resolve sum fold name false .stored).2 = .ok d ↔
      s.Retrievable fold name d b := by
  obtain ⟨path, f, hpath, hlink, hf⟩ := link_none hb hr h
  obtain ⟨hpath', hf'⟩ := manifest_setManifest f hpath
  rw [hlink]
  unfold Retrievable
  by_cases hdigest : (splitNameDigest name).2 = []
  · rw [if_neg (fun hne => hne hdigest)]
    rw [resolve_file hdigest ((manifestPath_split hpath' hdigest _).trans hpath') hf', Except.ok.injEq]
    have htake : sum (f.take manifestLimit) = d ↔ f.take manifestLimit = b := ⟨hhash _, fun heq => by rw [heq, hd]⟩
    rw [htake]
    have hshort : ∀ {g : Bytes}, g.length = b.length →
        (g.take manifestLimit = b ↔ b.length ≤ manifestLimit ∧ g = b) := by
      intro g hg
      constructor
      · intro heq
        have hlen := congrArg List.length heq
        rw [List.length_take] at hlen
        exact ⟨by omega, by rwa [List.take_of_length_le (by omega)] at heq⟩
      · rintro ⟨hle, rfl⟩
        exact List.take_of_length_le hle
    rcases hf with ⟨hold, hlen⟩ | ⟨hother, rfl⟩
    · rw [hshort hlen]
      refine and_congr_right fun _ => ⟨fun heq p g hp hg _ => ?_, fun hall => hall path f hpath hold hlen⟩
      rw [hpath, Option.some.injEq] at hp
      rw [← hp, hold, Option.some.injEq] at hg
      rw [← hg, heq]
    · rw [hshort rfl]
      refine and_congr_right fun _ => iff_of_true rfl fun p g hp hg hlen => ?_
      rw [hpath, Option.some.injEq] at hp
      exact absurd hlen (hother g (hp ▸ hg))
  · rw [if_pos hdigest]
    unfold resolve
    generalize splitNameDigest name = p at hdigest
    obtain ⟨name, digest⟩ := p
    dsimp only at hdigest ⊢
    rw [if_pos hdigest]
    cases parseDigest digest <;> simp

/-! ## Links of a short name -/

def short : Registry.Name := ⟨ascii "h", ascii "n", ascii "m", ascii "t"⟩

def shortName : Bytes := ascii "h/n/m:t"

theorem nameToPath_short : nameToPath shortName = some (ascii "h/n/m/t") := by
  have hfull : short.isFullyQualified = true := by decide
  have hparse : Registry.parse shortName = short := Registry.parse_written (Registry.Name.full hfull) (by decide)
  unfold nameToPath
  rw [hparse]
  decide

/-- A link over one of another size and letter case. -/
theorem upper_retrieved : (((Disk.mk (fun d => some d) [(ascii "manifests/H/n/m/t", [7, 7])]).link plain Char.toLower
    shortName [1] ⟨[([1], 1)], false, false⟩ false {}).1.resolve plain Char.toLower shortName false .stored).2 =
      .ok [1] := by
  have hpath : (Disk.mk (fun d => some d) [(ascii "manifests/H/n/m/t", [7, 7])]).manifestPath Char.toLower shortName =
      some (ascii "manifests/H/n/m/t") := by
    unfold manifestPath
    rw [nameToPath_short]
    decide
  refine (resolve_link_iff (b := [1]) rfl rfl (fun g h => h) ⟨by decide, fun _ => rfl⟩ ?_).mpr ?_
  · unfold link
    rw [hpath]
    decide
  · unfold Retrievable
    rw [if_neg (by decide)]
    refine ⟨by decide, fun path f hp hf hlen => ?_⟩
    rw [hpath, Option.some.injEq] at hp
    subst hp
    have hfile : (Disk.mk (fun d => some d) [(ascii "manifests/H/n/m/t", [7, 7])]).manifest (ascii "manifests/H/n/m/t") =
        some [7, 7] := by decide
    rw [hfile, Option.some.injEq] at hf
    rw [← hf] at hlen
    cases hlen

/-- The cache after two blobs of one byte are put, and the first one is linked. -/
def linked : Disk :=
  ((((Disk.empty.put plain [1] ⟨[([1], 1)], false, false⟩ 1 {}).1.put plain [2] ⟨[([2], 1)], false, false⟩ 1 {}).1.link
    plain id shortName [1] ⟨[([1], 1)], false, false⟩ false {})).1

/-- The second one is linked under the same name, and the first one is found. -/
theorem linked_stale : linked.blobs [2] = some [2] ∧
    (linked.link plain id shortName [2] ⟨[([2], 1)], false, false⟩ false {}).2 = none ∧
    ((linked.link plain id shortName [2] ⟨[([2], 1)], false, false⟩ false {}).1.resolve plain id shortName false
      .stored).2 = .ok [1] := by
  have hsplit : splitNameDigest shortName = (shortName, []) := by decide
  simp only [linked, link, resolve, manifestPath, hsplit, nameToPath_short]
  decide

end Disk

end Xdragon.Blob
