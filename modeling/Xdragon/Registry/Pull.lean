import Mathlib.Algebra.Group.Nat.Defs
import Xdragon.Blob.Cache

/-!
# Pulling a model

The calls of `Registry.Pull` over one blob cache. A pull goes through the layers of its manifest one
after another. It looks each one up, opens its file, and ranges over the chunk sums of the registry.
The chunks are fetched at the same time, by goroutines that outlive the round of their layer. What
the registry serves is given by the events: the manifest, the chunk sums and the bodies.

The hash, the text of a digest and the chunking threshold are parameters. The size of a blob is an
`int64`, and so are the sums over the layers.
-/

namespace Xdragon.Registry

open Xdragon.Lib Xdragon.Blob

/-- An `int64`, after an operation that may overflow. -/
def wrap (x : Int) : Int := x.bmod (2 ^ 64)

/-- A range of bytes. `stop` is its last byte. -/
structure Chunk where
  start : Int
  stop : Int
  deriving DecidableEq

def Chunk.size (c : Chunk) : Int := wrap (c.stop - c.start + 1)

structure Layer (δ : Type) where
  digest : δ
  size : Int
  deriving DecidableEq

structure Chunksum (δ : Type) where
  chunk : Chunk
  digest : δ
  deriving DecidableEq

/-- `config` is there when the manifest has one with a valid digest. -/
structure Manifest (δ : Type) where
  data : Bytes
  layers : List (Layer δ)
  config : Option (Layer δ)
  deriving DecidableEq

/-- The layers that `Pull` goes through. -/
def Manifest.all {δ : Type} (m : Manifest δ) : List (Layer δ) := m.layers ++ m.config.toList

inductive PullError
  | noLayers
  /-- The first error of the group. -/
  | fetch
  | incomplete (received expected : Int)
  | putManifest
  | link
  deriving DecidableEq

/-- One chunk of a layer. -/
inductive Fetch (δ : Type)
  /-- The key of the chunk was in the cache. -/
  | cached
  | reading (w : CheckWriter δ)
  /-- `chunked.Put` is over, and `PutBytes` of the key comes next. -/
  | recording (w : CheckWriter δ)
  | done (w : CheckWriter δ)
  | failed
  deriving DecidableEq

structure Entry (δ : Type) where
  cs : Chunksum δ
  fetch : Fetch δ
  deriving DecidableEq

/-- Where the loop of `Pull` stands at one layer. A chunker is validated when its file has the size
of the layer already. -/
inductive Stage
  | waiting
  | cached
  | missing
  | unopened
  | ranging (validated : Bool)
  | ranged (validated : Bool)
  deriving DecidableEq

def Stage.over : Stage → Bool
  | .cached | .unopened | .ranged _ => true
  | _ => false

/-- A layer with the chunk sums that were ranged over so far. -/
structure LayerState (δ : Type) where
  layer : Layer δ
  stage : Stage
  entries : List (Entry δ)

structure Pull (δ : Type) where
  m : Manifest δ
  layers : List (LayerState δ)
  completed : Int

/-- The blob directory and the pulls in progress. `returned` is the pull that returned in the last
step, with its error. -/
structure State (δ : Type) where
  files : δ → Option Bytes
  pulls : List (Pull δ)
  returned : Option (Manifest δ × Option PullError)

inductive Event (δ : Type)
  /-- `Resolve` gave the manifest. -/
  | pull (m : Manifest δ)
  /-- `c.Get` of layer `j` of pull `i`. -/
  | get (i j : Nat)
  /-- `c.Chunked`, which may fail. -/
  | chunked (i j : Nat) (openErr : Bool)
  /-- The next chunk sum, and the lookup of its key. -/
  | chunksum (i j : Nat) (cs : Chunksum δ)
  /-- The chunk sums end, or their stream breaks off. -/
  | rangeEnd (i j : Nat)
  /-- The body of chunk `k` gives `p`, and the file takes `taken` bytes of it. -/
  | read (i j k : Nat) (p : Bytes) (taken : Nat)
  | bodyEnd (i j k : Nat)
  | bodyErr (i j k : Nat)
  | record (i j k : Nat) (out : Outcome)
  /-- Everything after the loop, once all goroutines are over. -/
  | finish (i : Nat) (out : Outcome) (linkErr : Bool)
  | crash

section
variable {δ : Type} [DecidableEq δ]

def ascii (s : String) : Bytes := s.toUTF8.toList

/-- The text that is stored under its own digest once a chunk is complete. -/
def cacheKey (text : δ → Bytes) (d : δ) (cs : Chunksum δ) : Bytes :=
  ascii "v1 pull chunksum " ++ text d ++ ascii " " ++ text cs.digest ++ ascii " " ++
    ascii (toString cs.chunk.start) ++ ascii "-" ++ ascii (toString cs.chunk.stop)

/-- The one chunk sum of a layer under the chunking threshold. -/
def Layer.whole (l : Layer δ) : Chunksum δ := ⟨⟨0, l.size - 1⟩, l.digest⟩

/-- The chunk sums that `chunksums` can yield after those in `entries`. The ranges of the registry
have passed `parseChunk`. -/
def LayerState.yields (threshold : Int) (L : LayerState δ) (cs : Chunksum δ) : Bool :=
  if L.layer.size < threshold then cs = L.layer.whole ∧ L.entries = []
  else 0 ≤ cs.chunk.start ∧ cs.chunk.start ≤ cs.chunk.stop

def Fetch.over : Fetch δ → Bool
  | .cached | .done _ | .failed => true
  | _ => false

/-- `c.Get` finds nothing in an empty file. -/
def found (files : δ → Option Bytes) (d : δ) : Option Bytes :=
  (files d).bind fun f => if f = [] then none else some f

def Pull.expected (p : Pull δ) : Int := (p.m.all.map (·.size)).foldl (fun a b => wrap (a + b)) 0

namespace State

variable (s : State δ)

/-- Pull `i` with another state of its layer `j`, and what `update` added to `completed`. -/
def setLayer (i j : Nat) (p : Pull δ) (L : LayerState δ) (n : Int) : State δ :=
  { s with
    pulls := s.pulls.set i { p with layers := p.layers.set j L, completed := wrap (p.completed + n) }
    returned := none }

def get (i j : Nat) (p : Pull δ) (L : LayerState δ) : State δ :=
  match found s.files L.layer.digest with
  | some f =>
    if (f.length : Int) = L.layer.size then s.setLayer i j p { L with stage := .cached } L.layer.size
    else s.setLayer i j p { L with stage := .missing } 0
  | none => s.setLayer i j p { L with stage := .missing } 0

def chunked (i j : Nat) (p : Pull δ) (L : LayerState δ) (openErr : Bool) : State δ :=
  match s.files L.layer.digest with
  | some f =>
    if (f.length : Int) = L.layer.size then s.setLayer i j p { L with stage := .ranging true } 0
    else if openErr then s.setLayer i j p { L with stage := .unopened } 0
    else s.setLayer i j p { L with stage := .ranging false } 0
  | none =>
    if openErr then s.setLayer i j p { L with stage := .unopened } 0
    else
      { s with files := Function.update s.files L.layer.digest (some []) }.setLayer i j p
        { L with stage := .ranging false } 0

def chunksum (sum : Bytes → δ) (text : δ → Bytes) (i j : Nat) (p : Pull δ) (L : LayerState δ)
    (cs : Chunksum δ) : State δ :=
  match found s.files (sum (cacheKey text L.layer.digest cs)) with
  | some _ => s.setLayer i j p { L with entries := L.entries ++ [⟨cs, .cached⟩] } cs.chunk.size
  | none =>
    s.setLayer i j p { L with entries := L.entries ++ [⟨cs, .reading ⟨cs.chunk.size, cs.digest, [], 0, none⟩⟩] } 0

/-- Layer `j` with another state of its chunk `k`. -/
def setFetch (i j k : Nat) (p : Pull δ) (L : LayerState δ) (e : Entry δ) (f : Fetch δ) (n : Int) : State δ :=
  s.setLayer i j p { L with entries := L.entries.set k { e with fetch := f } } n

/-- One round of `io.CopyN`. The bytes count as received once they are read. -/
def read (sum : Bytes → δ) (i j k : Nat) (p : Pull δ) (L : LayerState δ) (e : Entry δ) (w : CheckWriter δ)
    (b : Bytes) (taken : Nat) : State δ :=
  match w.verify sum b with
  | .error _ => s.setFetch i j k p L e .failed b.length
  | .ok () =>
    let file := (s.files L.layer.digest).map (writeAt · (e.cs.chunk.start.toNat + w.n) (b.take taken))
    { s with files := Function.update s.files L.layer.digest file }.setFetch i j k p L e
      (if taken < b.length then .failed else .reading (w.wrote b taken)) b.length

def bodyEnd (i j k : Nat) (p : Pull δ) (L : LayerState δ) (e : Entry δ) (w : CheckWriter δ) (validated : Bool) :
    State δ :=
  if (w.n : Int) < e.cs.chunk.size ∧ !validated then s.setFetch i j k p L e .failed 0
  else s.setFetch i j k p L e (.recording w) 0

def record (sum : Bytes → δ) (text : δ → Bytes) (i j k : Nat) (p : Pull δ) (L : LayerState δ) (e : Entry δ)
    (w : CheckWriter δ) (out : Outcome) : State δ :=
  let key := cacheKey text L.layer.digest e.cs
  let (files, ok) := putBytes s.files (sum key) key out
  { s with files := files }.setFetch i j k p L e (if ok then .done w else .failed) 0

def finish (sum : Bytes → δ) (i : Nat) (p : Pull δ) (out : Outcome) (linkErr : Bool) : State δ :=
  let ret (s : State δ) (e : Option PullError) : State δ :=
    { s with pulls := s.pulls.eraseIdx i, returned := some (p.m, e) }
  if p.layers.any (·.entries.any (·.fetch = .failed)) then ret s (some .fetch)
  else if p.completed ≠ p.expected then ret s (some (.incomplete p.completed p.expected))
  else
    let (files, ok) := putBytes s.files (sum p.m.data) p.m.data out
    if ok then ret { s with files } (if linkErr then some .link else none)
    else ret { s with files } (some .putManifest)

/-- The layer that the loop stands at: all layers before it are over. -/
def layerAt (i j : Nat) : Option (Pull δ × LayerState δ) := do
  let p ← s.pulls[i]?
  let L ← p.layers[j]?
  if (p.layers.take j).all (·.stage.over) then some (p, L) else none

def entryAt (i j k : Nat) : Option (Pull δ × LayerState δ × Entry δ) := do
  let p ← s.pulls[i]?
  let L ← p.layers[j]?
  let e ← L.entries[k]?
  some (p, L, e)

def step (sum : Bytes → δ) (text : δ → Bytes) (threshold : Int) : Event δ → Option (State δ)
  | .pull m =>
    if m.layers = [] then some { s with returned := some (m, some .noLayers) }
    else some { s with pulls := s.pulls ++ [⟨m, m.all.map (⟨·, .waiting, []⟩), 0⟩], returned := none }
  | .get i j => do
    let (p, L) ← s.layerAt i j
    if L.stage = .waiting then some (s.get i j p L) else none
  | .chunked i j openErr => do
    let (p, L) ← s.layerAt i j
    if L.stage = .missing then some (s.chunked i j p L openErr) else none
  | .chunksum i j cs => do
    let (p, L) ← s.layerAt i j
    match L.stage with
    | .ranging _ => if L.yields threshold cs then some (s.chunksum sum text i j p L cs) else none
    | _ => none
  | .rangeEnd i j => do
    let (p, L) ← s.layerAt i j
    match L.stage with
    | .ranging v => some (s.setLayer i j p { L with stage := .ranged v } 0)
    | _ => none
  | .read i j k b taken => do
    let (p, L, e) ← s.entryAt i j k
    match e.fetch, L.stage with
    | .reading w, .ranging false | .reading w, .ranged false =>
      -- `io.LimitReader` hands out no more than the rest of the chunk
      if (w.n + b.length : Int) ≤ e.cs.chunk.size ∧ taken ≤ b.length then some (s.read sum i j k p L e w b taken)
      else none
    | _, _ => none
  | .bodyEnd i j k => do
    let (p, L, e) ← s.entryAt i j k
    match e.fetch, L.stage with
    | .reading w, .ranging v | .reading w, .ranged v => some (s.bodyEnd i j k p L e w v)
    | _, _ => none
  | .bodyErr i j k => do
    let (p, L, e) ← s.entryAt i j k
    match e.fetch with
    | .reading _ => some (s.setFetch i j k p L e .failed 0)
    | _ => none
  | .record i j k out => do
    let (p, L, e) ← s.entryAt i j k
    match e.fetch with
    | .recording w => some (s.record sum text i j k p L e w out)
    | _ => none
  | .finish i out linkErr => do
    let p ← s.pulls[i]?
    if p.layers.all (fun L => L.stage.over && L.entries.all (·.fetch.over)) then
      some (s.finish sum i p out linkErr)
    else none
  | .crash => some { s with pulls := [], returned := none }

end State

end

end Xdragon.Registry
