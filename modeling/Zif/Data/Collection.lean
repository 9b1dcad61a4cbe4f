import Zif.Data.Database
import Zif.Go.Slice
import Zif.Lib.Paging

/-!
# Collections

A collection is the hash list of a peer: the hashes of its pieces, 32 bytes each, and a running hash
over them. `HashList` is a Go slice whose capacity the bounds of a slice expression are checked
against, so it is a `Go.Buffer`; how much `append` allocates is left open (`grow`).

The field `Pieces`, which nothing reads, is left out.
-/

namespace Zif.Data

open Go

/-- `Collection`. -/
structure Collection where
  hashList : Buffer UInt8
  /-- What the field `RootHash` has been fed. -/
  rootHash : Bytes

namespace Collection

/-- `NewCollection`. -/
def new : Collection := ⟨Buffer.empty, []⟩

variable (P : Prims) (grow : Nat → Nat)

/-- `Collection.Add`. The choice between the branches compares a number of bytes with a number of
pieces. -/
def add (c : Collection) (piece : Piece) : Result Collection :=
  if UInt64.ofNat c.hashList.len < piece.id + 1 then
    .ok ⟨c.hashList.append grow 0 (piece.hash P), c.rootHash ++ piece.hash P⟩
  else
    match c.hashList.copyAt (piece.id * 32).toNat (piece.id * 32 + 32).toNat (piece.hash P) with
    | some hashList => .ok ⟨hashList, c.rootHash ++ piece.hash P⟩
    | none => .error .panic

/-- Adding pieces one after the other. -/
def addAll (c : Collection) (pieces : List Piece) : Result Collection :=
  pieces.foldlM (fun c piece => c.add P grow piece) c

/-- `Collection.Hash`. -/
def hash (c : Collection) : Bytes := P.sha3 c.rootHash

/-- `Collection.Rehash`. -/
def rehash (c : Collection) : Collection where
  hashList := c.hashList
  rootHash := (List.range (c.hashList.len / 32)).flatMap fun i =>
    (c.hashList.view.drop (i * 32)).take 32

/-- `LoadCollection`; `file` is what `ioutil.ReadFile` comes to. With an error comes a new collection. -/
def loadCollection (file : Result (Buffer UInt8)) : Collection × Result Unit :=
  match file with
  | .error f => (new, .error f)
  | .ok data =>
    if data.len % 32 ≠ 0 then (new, .error (.error "Invalid collection data file"))
    else (rehash ⟨data, []⟩, .ok ())

/-- `CreateCollection`; its argument `start` is not read. The quotient of floats is a rounded-up
quotient of integers as long as the count is below `2 ^ 53`. -/
def createCollection (db : Database) (pieceSize : Nat) : Result Collection :=
  (List.range (Paging.count pieceSize db.postCount)).foldlM (fun c i => do
    let piece ← db.queryPiece (UInt64.ofNat i) false
    c.add P grow piece) new

/-! ## What a hash list is for -/

/-- The ids of the pieces are `0, 1, 2, ...`. -/
def InOrder (pieces : List Piece) : Prop :=
  pieces.map (fun piece => piece.id.toNat) = List.range pieces.length

/-- Adding the pieces to a new collection lists their hashes, and adding one of them again replaces
its hash and nothing else. -/
def ListsHashes (pieces : List Piece) : Prop :=
  ∃ c, new.addAll P grow pieces = .ok c ∧
    c.hashList.view = pieces.flatMap (Piece.hash P) ∧
    ∀ piece : Piece, piece.id.toNat < pieces.length →
      ∃ c', c.add P grow piece = .ok c' ∧
        c'.hashList.view = c.hashList.view.take (32 * piece.id.toNat) ++ piece.hash P ++
          c.hashList.view.drop (32 * piece.id.toNat + 32)

/-! ## Collections in use -/

/-- A call that changes a collection. -/
inductive Call where
  | add (piece : Piece)
  | rehash

/-- A collection as `NewCollection` or `LoadCollection` returns it. The length of a file is an `int`. -/
inductive Made : Collection → Prop where
  | new : Made new
  | load (file : Result (Buffer UInt8)) (h : ∀ data, file = .ok data → data.len < 2 ^ 63) :
      Made (loadCollection file).1

/-- The calls lead from one collection to another: they stay in range, and no piece has an id beyond the
number of blocks. -/
inductive Reaches : Collection → List Call → Collection → Prop where
  | nil (c : Collection) : Reaches c [] c
  | add {c c' c'' : Collection} {piece : Piece} {calls : List Call} :
      piece.id.toNat ≤ c.hashList.len / 32 → c.add P grow piece = .ok c' → Reaches c' calls c'' →
        Reaches c (.add piece :: calls) c''
  | rehash {c c' : Collection} {calls : List Call} :
      Reaches c.rehash calls c' → Reaches c (.rehash :: calls) c'

/-- How many pieces have been added since the last `Rehash` to a list that was not empty; `n` is the count
before these calls. -/
def overwritten : (empty : Bool) → (n : Nat) → List Call → Nat
  | _, n, [] => n
  | empty, _, .rehash :: calls => overwritten empty 0 calls
  | empty, n, .add _ :: calls => overwritten false (if empty then n else n + 1) calls

end Collection

end Zif.Data
