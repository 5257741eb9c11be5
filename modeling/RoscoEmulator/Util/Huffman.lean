import RoscoEmulator.Util.Bitstream

/-!
# Static Huffman codes

`huffman_encoder` and `huffman_decoder` for `numcodes` codes of at most `maxbits` bits: the lengths
of the codes from a histogram, the canonical codes from the lengths, and the run-length form in
which the lengths are exported and imported.

The encoder scales the counts down until no code is too long. A tree is a tree here, where the code
has nodes with pointers to their parents; the length of a code is its depth. The weights are counted
without the wrap at 32 bits, which takes more than a billion data items.
-/

namespace RoscoEmulator.Util

/-- `huffman_error`, as far as these functions return it. -/
inductive HuffmanError
  | invalidData | inputBufferTooSmall | outputBufferTooSmall | internalInconsistency
  /-- There is no result: a part of the lookup table is used that is not there or that is not
  set. -/
  | undefined
deriving DecidableEq, Repr

/-! ## Trees -/

/-- A tree of nodes. -/
inductive HuffTree
  | code (c : ℕ)
  | node (l r : HuffTree)
deriving DecidableEq, Repr

/-- A tree with the weight of its root. -/
structure Weighted where
  weight : ℕ
  tree : HuffTree
deriving DecidableEq, Repr

namespace HuffTree

/-- The number of nodes above a code. -/
def depth? (c : ℕ) : HuffTree → Option ℕ
  | code c' => if c' = c then some 0 else none
  | node l r => ((depth? c l).orElse fun _ ↦ depth? c r).map (· + 1)

end HuffTree

/-- The order of `tree_node_compare`, for nodes that are codes: the larger weight first, and the
smaller code first among equal weights. -/
def compareLe (a b : ℕ × ℕ) : Prop := b.1 < a.1 ∨ b.1 = a.1 ∧ a.2 ≤ b.2

instance : DecidableRel compareLe := fun _ _ ↦ inferInstanceAs (Decidable (_ ∨ _ ∧ _))

/-- The weight of a code, by its effective length. -/
def scaledWeight (histo totaldata totalweight : ℕ) : ℕ :=
  if histo * totalweight / totaldata = 0 then 1 else histo * totalweight / totaldata

/-- The codes that occur, with their weights. -/
def usedCodes (histo : List ℕ) (totaldata totalweight : ℕ) : List (ℕ × ℕ) :=
  (List.range histo.length).filterMap fun c ↦
    if histo.getD c 0 = 0 then none
      else some (scaledWeight (histo.getD c 0) totaldata totalweight, c)

/-- A new node goes in front of the first one that has less weight. -/
def insertNode (node : Weighted) : List Weighted → List Weighted
  | [] => [node]
  | n :: ns => if n.weight < node.weight then node :: n :: ns else n :: insertNode node ns

/-- The loop of `build_tree`. The list is the one of the code, the last item first. -/
def mergeNodes : ℕ → List Weighted → Option HuffTree
  | 0, _ => none
  | _ + 1, [] => none
  | _ + 1, [n] => some n.tree
  | fuel + 1, node1 :: node0 :: list =>
      mergeNodes fuel
        (insertNode ⟨node0.weight + node1.weight, .node node0.tree node1.tree⟩ list.reverse).reverse

/-- `build_tree`: the number of bits of each code. -/
def buildTree (histo : List ℕ) (totaldata totalweight : ℕ) : List ℕ :=
  let list := (usedCodes histo totaldata totalweight).insertionSort compareLe
  match mergeNodes (list.length + 1) (list.map fun p ↦ ⟨p.1, .code p.2⟩).reverse with
  | none => histo.map fun _ ↦ 0
  | some tree => (List.range histo.length).map fun c ↦
      match tree.depth? c with
      | none => 0
      | some 0 => 1
      | some (d + 1) => d + 1

/-- The largest number of bits. -/
def maxNumbits (numbits : List ℕ) : ℕ := numbits.foldl max 0

/-- The search of `compute_tree_from_histo`, for at most `fuel` rounds. -/
def searchWeight (maxbits : ℕ) (histo : List ℕ) : ℕ → ℕ → ℕ → Option (List ℕ)
  | 0, _, _ => none
  | fuel + 1, lowerweight, upperweight =>
      let curweight := (upperweight + lowerweight) / 2
      let numbits := buildTree histo histo.sum curweight
      if maxNumbits numbits ≤ maxbits then
        if curweight = histo.sum ∨ upperweight - curweight ≤ 1 then some numbits
        else searchWeight maxbits histo fuel curweight upperweight
      else searchWeight maxbits histo fuel lowerweight curweight

/-! ## Canonical codes -/

/-- The part of `assign_canonical_codes` that finds the first code of each length, from `codelen`
down. -/
def startingCodes (histo : ℕ → ℕ) : ℕ → ℕ → (ℕ → ℕ) → Option (ℕ → ℕ)
  | 0, _, starts => some starts
  | codelen + 1, curstart, starts =>
      let total := curstart + histo (codelen + 1)
      if codelen + 1 ≠ 1 ∧ total / 2 * 2 ≠ total then none
      else startingCodes histo codelen (total / 2) (Function.update starts (codelen + 1) curstart)

/-- The part of `assign_canonical_codes` that gives out the codes. -/
def giveCodes : List ℕ → (ℕ → ℕ) → List ℕ
  | [], _ => []
  | n :: numbits, next =>
      if 0 < n then next n :: giveCodes numbits (Function.update next n (next n + 1))
      else 0 :: giveCodes numbits next

/-- `assign_canonical_codes`. -/
def assignCanonicalCodes (maxbits : ℕ) (numbits : List ℕ) : Except HuffmanError (List ℕ) :=
  if numbits.any (maxbits < ·) then .error .internalInconsistency
  else
    match startingCodes (fun codelen ↦ numbits.count codelen) 32 0 (fun _ ↦ 0) with
    | none => .error .internalInconsistency
    | some starts => .ok (giveCodes numbits starts)

/-! ## Encoding -/

/-- `huffman_encoder`, with its tree. -/
structure HuffmanEncoder where
  numbits : List ℕ
  bits : List ℕ
deriving DecidableEq, Repr

/-- `compute_tree_from_histo`. -/
def computeTree (maxbits : ℕ) (histo : List ℕ) : Except HuffmanError HuffmanEncoder :=
  match searchWeight maxbits histo (histo.sum * 2 + 2) 0 (histo.sum * 2) with
  | none => .error .internalInconsistency
  | some numbits => (assignCanonicalCodes maxbits numbits).map fun bits ↦ ⟨numbits, bits⟩

/-- The number of bits that the length of a code is exported in. -/
def lengthBits (maxbits : ℕ) : ℕ := if 16 ≤ maxbits then 5 else if 8 ≤ maxbits then 4 else 3

/-- What `write_rle_tree_bits` writes, for at most `fuel` rounds. -/
def rleTreeBits (value numbits : ℕ) : ℕ → ℕ → List (ℕ × ℕ)
  | 0, _ => []
  | fuel + 1, repcount =>
      if repcount = 0 then []
      else if value = 1 then (1, numbits) :: (1, numbits) ::
        rleTreeBits value numbits fuel (repcount - 1)
      else if repcount ≤ 2 then (value, numbits) :: rleTreeBits value numbits fuel (repcount - 1)
      else
        let curReps := min (repcount - 3) (2 ^ numbits - 1)
        (1, numbits) :: (value, numbits) :: (curReps, numbits) ::
          rleTreeBits value numbits fuel (repcount - (curReps + 3))

/-- The loop of `export_tree_rle`, in a run of `repcount` lengths. -/
def exportRuns (numbits : ℕ) : List ℕ → ℕ → ℕ → List (ℕ × ℕ)
  | [], lastval, repcount => rleTreeBits lastval numbits repcount repcount
  | newval :: lengths, lastval, repcount =>
      if repcount ≠ 0 ∧ newval = lastval then exportRuns numbits lengths lastval (repcount + 1)
      else rleTreeBits lastval numbits repcount repcount ++ exportRuns numbits lengths newval 1

namespace HuffmanEncoder

variable (e : HuffmanEncoder)

/-- What `export_tree_rle` writes. -/
def treeBits (maxbits : ℕ) : List (ℕ × ℕ) := exportRuns (lengthBits maxbits) e.numbits 0 0

/-- `export_tree_rle`. -/
def exportTreeRle (maxbits : ℕ) (o : BitstreamOut) : Except HuffmanError BitstreamOut :=
  match o.writeAll (e.treeBits maxbits) with
  | none => .error .undefined
  | some o => if o.overflow then .error .outputBufferTooSmall else .ok o

/-- What `encode_one` writes. -/
def codeBits (data : ℕ) : ℕ × ℕ := (e.bits.getD data 0, e.numbits.getD data 0)

end HuffmanEncoder

/-! ## Decoding -/

/-- An entry of the lookup table: a code and its length. -/
abbrev Lookup : Type := ℕ → Option (ℕ × ℕ)

/-- `build_lookup_table`, from the code `curcode` on. -/
def buildLookupTable (maxbits : ℕ) : ℕ → List (ℕ × ℕ) → Lookup → Option Lookup
  | _, [], lookup => some lookup
  | curcode, (bits, numbits) :: nodes, lookup =>
      if numbits = 0 then buildLookupTable maxbits (curcode + 1) nodes lookup
      else
        let shift := maxbits - numbits
        if 2 ^ maxbits < (bits + 1) * 2 ^ shift then none
        else buildLookupTable maxbits (curcode + 1) nodes fun i ↦
          if bits * 2 ^ shift ≤ i ∧ i < (bits + 1) * 2 ^ shift
            then some (curcode, numbits) else lookup i

/-- The lengths of the loop of `import_tree_rle`, for at most `fuel` rounds. -/
def importLengths (numbits numcodes : ℕ) :
    ℕ → List ℕ → BitstreamIn → Except HuffmanError (List ℕ × BitstreamIn)
  | 0, _, _ => .error .undefined
  | fuel + 1, lengths, b =>
      if numcodes ≤ lengths.length then .ok (lengths, b)
      else
        match b.read numbits with
        | none => .error .undefined
        | some (nodebits, b) =>
            if nodebits ≠ 1 then importLengths numbits numcodes fuel (lengths ++ [nodebits]) b
            else
              match b.read numbits with
              | none => .error .undefined
              | some (nodebits, b) =>
                  if nodebits = 1 then importLengths numbits numcodes fuel (lengths ++ [nodebits]) b
                  else
                    match b.read numbits with
                    | none => .error .undefined
                    | some (reps, b) =>
                        importLengths numbits numcodes fuel
                          (lengths ++ List.replicate (reps + 3) nodebits) b

/-- `import_tree_rle`. -/
def importTreeRle (numcodes maxbits : ℕ) (b : BitstreamIn) :
    Except HuffmanError (Lookup × BitstreamIn) := do
  let (lengths, b) ← importLengths (lengthBits maxbits) numcodes (numcodes + 1) [] b
  if lengths.length ≠ numcodes then .error .invalidData
  else
    let bits ← assignCanonicalCodes maxbits lengths
    match buildLookupTable maxbits 0 (bits.zip lengths) (fun _ ↦ none) with
    | none => .error .undefined
    | some lookup => if b.overflow then .error .inputBufferTooSmall else .ok (lookup, b)

/-- `decode_one`. -/
def decodeOne (maxbits : ℕ) (lookup : Lookup) (b : BitstreamIn) : Option (ℕ × BitstreamIn) :=
  let b := b.prepare maxbits
  (lookup (b.front maxbits)).map fun (data, numbits) ↦ (data, b.remove numbits)

end RoscoEmulator.Util
