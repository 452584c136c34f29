import Xdragon.Lib.Replace
import Xdragon.Lib.Wire

/-!
# Layers and their files

`manifest/manifest.go`, `manifest/layer.go`, `manifest/paths.go`, and `deleteUnusedLayers` and
`PruneLayers` of `server/images.go`. A path is the name of an entry of the directory of blobs, and
the empty name is that directory. Names are compared byte by byte.
-/

open Xdragon.Lib

namespace Xdragon.Layers

/-! ## Paths -/

def isHexDigit (b : UInt8) : Bool :=
  (48 ≤ b && b ≤ 57) || (97 ≤ b && b ≤ 102) || (65 ≤ b && b ≤ 70)

/-- `^sha256[:-][0-9a-fA-F]{64}$`. -/
def isDigest (digest : Bytes) : Bool :=
  digest.take 6 = ascii "sha256" && (digest.drop 6).take 1 ∈ [ascii ":", ascii "-"] &&
    (digest.drop 7).length = 64 && (digest.drop 7).all isHexDigit

/-- `BlobsPath`. `none` is `ErrInvalidDigestFormat`. -/
def blobsPath (digest : Bytes) : Option Bytes :=
  if digest ≠ [] ∧ ¬ isDigest digest then none else some (replaceAll digest (ascii ":") (ascii "-"))

/-! ## Manifests -/

/-- A layer, as far as its removal looks at it. -/
structure Layer where
  digest : Bytes
deriving DecidableEq

structure Manifest where
  config : Layer
  layers : List Layer

/-- `append(m.Layers, m.Config)`. -/
def Manifest.all (m : Manifest) : List Layer := m.layers ++ [m.config]

/-- What the deletions see. -/
structure Disk where
  /-- What `Manifests(true)` finds, unless it fails. -/
  manifests : List Manifest
  readable : Bool := true
  /-- The entries of the directory of blobs. -/
  blobs : List Bytes
  /-- The entries that `os.Remove` cannot remove. -/
  refuses : Bytes → Bool := fun _ => false

inductive RemovalError where
  | unreadableManifests
  | invalidDigestFormat
  | notExist (path : Bytes)
  | refused (path : Bytes)

/-- `os.Remove`. It does not remove a directory that has entries. -/
def Disk.remove (d : Disk) (path : Bytes) : Disk × Option RemovalError :=
  if path = [] then (d, if d.blobs = [] then none else some (.refused path))
  else if path ∉ d.blobs then (d, some (.notExist path))
  else if d.refuses path then (d, some (.refused path))
  else ({ d with blobs := d.blobs.filter (· ≠ path) }, none)

/-- The digests of all manifests, as they are spelled there. -/
def Disk.used (d : Disk) : List Bytes := d.manifests.flatMap fun m => m.all.map (·.digest)

/-! ## Removal -/

def removeLayersLoop (inUse : List Bytes) : List Layer → Disk → Disk × Option RemovalError
  | [], d => (d, none)
  | layer :: rest, d =>
    if layer.digest = [] then removeLayersLoop inUse rest d
    else if layer.digest ∈ inUse then removeLayersLoop inUse rest d
    else match blobsPath layer.digest with
      | none => (d, some .invalidDigestFormat)
      | some blob =>
        match d.remove blob with
        | (d, some (.refused path)) => (d, some (.refused path))
        | (d, _) => removeLayersLoop inUse rest d

/-- `Manifest.RemoveLayers`, when the file of `m` is gone. -/
def removeLayers (m : Manifest) (d : Disk) : Disk × Option RemovalError :=
  if !d.readable then (d, some .unreadableManifests)
  else removeLayersLoop (d.used.filter (· ≠ [])) m.all d

/-- `Layer.Remove`. -/
def Layer.remove (l : Layer) (d : Disk) : Disk × Option RemovalError :=
  if l.digest = [] then (d, none)
  else if !d.readable then (d, some .unreadableManifests)
  else if l.digest ∈ d.used then (d, none)
  else match blobsPath l.digest with
    | none => (d, some .invalidDigestFormat)
    | some blob => d.remove blob

/-- The files of the digests that are left. What cannot be removed stays. -/
def deleteLoop : List Bytes → Disk → Disk
  | [], d => d
  | k :: rest, d =>
    match blobsPath k with
    | none => deleteLoop rest d
    | some fp => deleteLoop rest (d.remove fp).1

def deleteUnusedLayers (deleteMap : List Bytes) (d : Disk) : Disk × Option RemovalError :=
  if !d.readable then (d, some .unreadableManifests)
  else (deleteLoop (deleteMap.filter (· ∉ d.used)) d, none)

/-- The digest that `PruneLayers` reads from the name of a file. -/
def digestOfName (name : Bytes) : Bytes := replaceAll name (ascii "-") (ascii ":")

/-- The loop of `PruneLayers` over the directory: files whose names are no digests are removed. -/
def pruneLoop : List Bytes → List Bytes → Disk → List Bytes × Disk
  | [], deleteMap, d => (deleteMap, d)
  | blob :: rest, deleteMap, d =>
    match blobsPath (digestOfName blob) with
    | none => pruneLoop rest deleteMap (d.remove blob).1
    | some _ => pruneLoop rest (deleteMap ++ [digestOfName blob]) d

def pruneLayers (d : Disk) : Disk :=
  let out := pruneLoop d.blobs [] d
  (deleteUnusedLayers out.1 out.2).1

end Xdragon.Layers
