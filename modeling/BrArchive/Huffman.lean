import BrArchive.Defs
import BrArchive.CanonicalCode
import Mathlib.Logic.Function.Basic

/-! # Huffman coding

`bra_huffman.c`, from the frequency tree to the packed bits and back.  A
`bra_huffman_node_t*` is a binary tree of nodes, the null pointer being the empty
tree.  Every allocation is taken to succeed.  The 256-entry tables are functions on
bytes; of a row `codes[i]` only the first `lengths[i]` entries are ever read, and the
row stands for these.
-/
namespace BrArchive
open CodeTree CanonicalCode

/-- `bra_huffman_node_t` without its two links. -/
structure HuffmanNode where
  symbol : UInt8
  freq : Nat
  deriving DecidableEq, Repr

/-- `bra_huffman_node_t*`. -/
abbrev HuffmanTree := BinaryTree HuffmanNode

/-- `node->freq`.  Frequencies of a buffer add up to its `uint32_t` size and do not wrap. -/
def HuffmanTree.freq : HuffmanTree → Nat
  | .nil => 0
  | .node n _ _ => n.freq

/-- `bra_huffman_create_node`. -/
def braHuffmanCreateNode (symbol : UInt8) (freq : Nat) : HuffmanTree := leaf ⟨symbol, freq⟩

/-- `bra_huffman_t`. -/
structure BraHuffman where
  lengths : UInt8 → UInt8
  origSize : UInt32
  encodedSize : UInt32

/-- `bra_huffman_chunk_t`. -/
structure BraHuffmanChunk where
  info : BraHuffman
  data : Bytes

/-! ## The min-heap, a sorted linked list -/

/-- The walk of `bra_minHeap_insert` past the head: behind all lighter nodes. -/
def minHeapWalk (node : HuffmanTree) : List HuffmanTree → List HuffmanTree
  | [] => [node]
  | next :: heap =>
    if next.freq < node.freq then next :: minHeapWalk node heap else node :: next :: heap

/-- `bra_minHeap_insert`. -/
def braMinHeapInsert (node : HuffmanTree) : List HuffmanTree → List HuffmanTree
  | [] => [node]
  | head :: heap =>
    if head.freq > node.freq then node :: head :: heap else head :: minHeapWalk node heap

/-- The leaves `bra_huffman_tree_build` starts from. -/
def minHeapLeaves (freq : UInt8 → Nat) : List HuffmanTree :=
  alphabet.foldl (fun minHeap i =>
    if freq i > 0 then braMinHeapInsert (braHuffmanCreateNode i (freq i)) minHeap
    else minHeap) []

/-- The parent of two extracted nodes. -/
def huffmanJoin (l r : HuffmanTree) : HuffmanTree := .node ⟨0, l.freq + r.freq⟩ l r

/-- The loop of `bra_huffman_tree_build`; each round shortens the heap by one. -/
def minHeapMerge : Nat → List HuffmanTree → Option HuffmanTree
  | _, [] => none
  | _, [root] => some root
  | 0, _ :: _ :: _ => none
  | fuel + 1, l :: r :: minHeap => minHeapMerge fuel (braMinHeapInsert (huffmanJoin l r) minHeap)

/-- `bra_huffman_tree_build`. -/
def braHuffmanTreeBuild (freq : UInt8 → Nat) : Option HuffmanTree :=
  minHeapMerge (minHeapLeaves freq).length (minHeapLeaves freq)

/-! ## Code lengths and canonical codes -/

/-- `bra_huffman_generate_codes`; `code` holds the bits on the way to `root`. -/
def braHuffmanGenerateCodes : HuffmanTree → (UInt8 → List Bool) × (UInt8 → UInt8) → List Bool →
    (UInt8 → List Bool) × (UInt8 → UInt8)
  | .nil, out, _ => out
  | .node n .nil .nil, (codes, lengths), code =>
    if code.length = 0 then
      (Function.update codes n.symbol [false], Function.update lengths n.symbol 1)
    else
      (Function.update codes n.symbol code,
        Function.update lengths n.symbol (UInt8.ofNat code.length))
  | .node _ l r, out, code =>
    braHuffmanGenerateCodes r (braHuffmanGenerateCodes l out (code ++ [false])) (code ++ [true])

/-- The number of symbols of each length. -/
def canonicalCount (lengths : UInt8 → UInt8) : Nat → Nat :=
  alphabet.foldl (fun count i =>
    if lengths i > 0 then
      Function.update count (lengths i).toNat (count (lengths i).toNat + 1)
    else count) (fun _ => 0)

/-- The loop that turns the counts into starting codes, over the lengths left to do. -/
def canonicalStart : List Nat → Nat → (Nat → Nat) → (Nat → Nat)
  | [], _, count => count
  | len :: lens, code, count =>
    let code := 2 * code % 2 ^ 32
    canonicalStart lens ((code + count len) % 2 ^ 32) (Function.update count len code)

/-- The loop that assigns the codes, over the symbols left to do. -/
def canonicalAssign (lengths : UInt8 → UInt8) :
    List UInt8 → (Nat → Nat) → (UInt8 → List Bool) → (UInt8 → List Bool)
  | [], _, codes => codes
  | i :: syms, count, codes =>
    if lengths i = 0 then canonicalAssign lengths syms count codes
    else
      let c := count (lengths i).toNat
      canonicalAssign lengths syms (Function.update count (lengths i).toNat ((c + 1) % 2 ^ 32))
        (Function.update codes i (codeBits (lengths i).toNat c))

/-- `bra_huffman_compute_canonical_codes`. -/
def braHuffmanComputeCanonicalCodes (lengths : UInt8 → UInt8) (codes : UInt8 → List Bool) :
    UInt8 → List Bool :=
  let count := Function.update (canonicalCount lengths) 0 0
  canonicalAssign lengths alphabet (canonicalStart (List.range' 1 256) 0 count) codes

/-- `bra_huffman_tree_build_from_lengths`: the code of every symbol with a length is
inserted below a blank root. -/
def braHuffmanTreeBuildFromLengths (lengths : UInt8 → UInt8) : Option HuffmanTree :=
  let codes := braHuffmanComputeCanonicalCodes lengths (fun _ => [])
  insertAll ⟨0, 0⟩ (braHuffmanCreateNode 0 0)
    ((alphabet.filter (fun i => lengths i ≠ 0)).map (fun i => (codes i, ⟨i, 0⟩)))

/-! ## Encoding -/

/-- The bytes written so far, the byte being filled and the bits in it. -/
structure BitPacker where
  data : Bytes
  curByte : UInt8
  bitPos : Nat

/-- One turn of the inner loop of step 5. -/
def BitPacker.pack (p : BitPacker) (bit : Bool) : BitPacker :=
  let curByte := if bit then p.curByte ||| 1 <<< UInt8.ofNat (7 - p.bitPos) else p.curByte
  if p.bitPos + 1 = 8 then ⟨p.data ++ [curByte], 0, 0⟩ else ⟨p.data, curByte, p.bitPos + 1⟩

/-- The last, partly filled byte is written too. -/
def BitPacker.finish (p : BitPacker) : Bytes :=
  if p.bitPos > 0 then p.data ++ [p.curByte] else p.data

/-- Byte frequencies, step 1. -/
def huffmanFreq (buf : Bytes) : UInt8 → Nat :=
  buf.foldl (fun freq b => Function.update freq b (freq b + 1)) (fun _ => 0)

/-- The number of code bits, step 4. -/
def huffmanBitCount (lengths : UInt8 → UInt8) (buf : Bytes) : Nat :=
  buf.foldl (fun bitCount b => (bitCount + (lengths b).toNat) % 2 ^ 32) 0

/-- `bra_huffman_encode`. -/
def braHuffmanEncode (buf : Bytes) : Option BraHuffmanChunk :=
  match braHuffmanTreeBuild (huffmanFreq buf) with
  | none => none
  | some root =>
    let (codes, lengths) := braHuffmanGenerateCodes root (fun _ => [], fun _ => 0) []
    let codes := braHuffmanComputeCanonicalCodes lengths codes
    let packer := buf.foldl (fun p symbol => (codes symbol).foldl BitPacker.pack p) ⟨[], 0, 0⟩
    some {
      info := {
        lengths
        origSize := UInt32.ofNat buf.length
        encodedSize := (UInt32.ofNat (huffmanBitCount lengths buf) + 7) / 8 }
      data := packer.finish }

/-! ## Decoding -/

/-- The bits of a byte in the order the decoder reads them. -/
def byteBits (byte : UInt8) : List Bool :=
  [7, 6, 5, 4, 3, 2, 1, 0].map (fun bit => byte >>> bit &&& 1 != 0)

/-- What the decoder does to memory: it reads a link of `cur`, or it stores a byte. -/
inductive HuffmanAccess
  | step (cur : HuffmanTree)
  | store (idx : Nat)
  deriving DecidableEq

/-- The state of the decoding loops.  Symbols are stored one after the other, so the
buffer is the list of the symbols stored. -/
structure HuffmanDecoder where
  cur : HuffmanTree
  decoded : Bytes
  decodedIdx : Nat
  accesses : List HuffmanAccess

section Decode
variable (root : HuffmanTree) (origSize : Nat)

/-- The inner loop over the bits of a byte.  `error` is the jump to the error label. -/
def huffmanDecodeBits : List Bool → HuffmanDecoder → Except HuffmanDecoder HuffmanDecoder
  | [], d => .ok d
  | bitVal :: bits, d =>
    let accesses := d.accesses ++ [.step d.cur]
    match child d.cur bitVal with
    | .nil => .error { d with cur := .nil, accesses }
    | .node n .nil .nil =>
      let d : HuffmanDecoder := {
        cur := root
        decoded := d.decoded ++ [n.symbol]
        decodedIdx := (d.decodedIdx + 1) % 2 ^ 32
        accesses := accesses ++ [.store d.decodedIdx] }
      if d.decodedIdx ≥ origSize then .ok d else huffmanDecodeBits bits d
    | cur => huffmanDecodeBits bits { d with cur, accesses }

/-- The outer loop over the bytes. -/
def huffmanDecodeBytes : Bytes → HuffmanDecoder → Except HuffmanDecoder HuffmanDecoder
  | [], d => .ok d
  | byte :: data, d =>
    match huffmanDecodeBits root origSize (byteBits byte) d with
    | .ok d => huffmanDecodeBytes data d
    | .error d => .error d

end Decode

/-- What `bra_huffman_decode` returns, `*out_size`, and its memory accesses. -/
structure HuffmanDecoding where
  decoded : Option Bytes
  outSize : Nat
  accesses : List HuffmanAccess

/-- What follows the loops: the number of symbols is checked. -/
def huffmanFinish (origSize : Nat) : Except HuffmanDecoder HuffmanDecoder → HuffmanDecoding
  | .error d => ⟨none, 0, d.accesses⟩
  | .ok d =>
    if d.decodedIdx ≠ origSize then ⟨none, 0, d.accesses⟩
    else ⟨some d.decoded, d.decodedIdx, d.accesses⟩

/-- `bra_huffman_decode`. -/
def braHuffmanDecode (info : BraHuffman) (data : Bytes) : HuffmanDecoding :=
  match braHuffmanTreeBuildFromLengths info.lengths with
  | none => ⟨none, 0, []⟩
  | some root =>
    huffmanFinish info.origSize.toNat
      (huffmanDecodeBytes root info.origSize.toNat (data.take info.encodedSize.toNat)
        ⟨root, [], 0, []⟩)

end BrArchive
