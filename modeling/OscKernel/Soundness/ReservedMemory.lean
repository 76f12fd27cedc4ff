import OscKernel.Model.ReservedMemory
import OscKernel.Soundness.DeviceTree

/-! # The regions of the reserved memory

Behind a child the scan stands at the next child or at the end of the node. Behind the properties it
looks for the first token that starts a node, and a node without children has none: the scan then
leaves the node.
-/

namespace OscKernel.Soundness.ReservedMemory

open OscKernel.Lib OscKernel.Model OscKernel.Soundness.CpioArchive OscKernel.Soundness.DeviceTree

/-! ## Cells -/

section Cells

variable {memory : ByteMemory} {p : Word}

/-- A cell of 64 bits in big-endian bytes. -/
def be64 (n : Word) : List UInt8 := be32 (n.extractLsb' 32 32) ++ be32 (n.extractLsb' 0 32)

/-- A cell of 64 bits is read as two of 32. -/
private theorem fdt64ToCpu_eq (memory : ByteMemory) (p : Word) : memory.fdt64ToCpu p =
    (memory.fdt32ToCpu p).setWidth 64 <<< 32 ||| (memory.fdt32ToCpu (p + 4#64)).setWidth 64 := by
  have fifth : p + 4#64 + 1#64 = p + 5#64 := BitVec.add_assoc p _ _
  have sixth : p + 4#64 + 2#64 = p + 6#64 := BitVec.add_assoc p _ _
  have seventh : p + 4#64 + 3#64 = p + 7#64 := BitVec.add_assoc p _ _
  have widen : ∀ (b : BitVec 8) (k : ℕ), k ≤ 24 → (b.setWidth 32 <<< k).setWidth 64 =
      b.setWidth 64 <<< k := by
    intro b k small
    apply BitVec.eq_of_toNat_eq
    have bound := b.isLt
    have power : 2 ^ k ≤ 2 ^ 24 := Nat.pow_le_pow_right (by decide) small
    simp only [BitVec.toNat_setWidth, BitVec.toNat_shiftLeft, Nat.shiftLeft_eq]
    have product : b.toNat * 2 ^ k < 2 ^ 32 := by nlinarith
    rw [Nat.mod_eq_of_lt (by omega : b.toNat < 2 ^ 32), Nat.mod_eq_of_lt product,
      Nat.mod_eq_of_lt (by omega : b.toNat < 2 ^ 64)]
  have last : ∀ b : BitVec 8, (b.setWidth 32).setWidth 64 = b.setWidth 64 := by
    intro b
    apply BitVec.eq_of_toNat_eq
    have bound := b.isLt
    rw [BitVec.toNat_setWidth, BitVec.toNat_setWidth, BitVec.toNat_setWidth]
    omega
  rw [ByteMemory.fdt64ToCpu, ByteMemory.fdt32ToCpu, ByteMemory.fdt32ToCpu, fifth, sixth, seventh]
  simp only [BitVec.setWidth_or, widen _ _ (show 24 ≤ 24 by decide),
    widen _ _ (show 16 ≤ 24 by decide), widen _ _ (show 8 ≤ 24 by decide), last,
    BitVec.shiftLeft_or_distrib, BitVec.or_assoc, ← BitVec.shiftLeft_add]

theorem fdt64ToCpu_be64 {n : Word} (stored : Stored memory p (be64 n)) :
    memory.fdt64ToCpu p = n := by
  have high := fdt32ToCpu_be32 stored.left
  have low : memory.fdt32ToCpu (p + 4#64) = n.extractLsb' 0 32 := fdt32ToCpu_be32 stored.right
  rw [fdt64ToCpu_eq, high, low]
  apply BitVec.eq_of_getLsbD_eq
  intro i bound
  simp only [BitVec.getLsbD_or, BitVec.getLsbD_shiftLeft, BitVec.getLsbD_setWidth,
    BitVec.getLsbD_extractLsb']
  rcases Nat.lt_or_ge i 32 with below | above
  · simp [below, bound]
  · simp [bound, show ¬ i < 32 by omega, show i - 32 < 32 by omega, show i - 32 < 64 by omega,
      show 32 + (i - 32) = i by omega]

end Cells

/-! ## Tokens inside of a range -/

/-- A pointer within so many bytes. -/
def Within (p : Word) (n : ℕ) (t : Word) : Prop := ∃ k < n, t = p + BitVec.ofNat 64 k

section Ranges

variable {loop rest : ℕ → Option (List Word)} {p t : Word} {m n : ℕ}

theorem Within.start (positive : 0 < n) : Within p n p := ⟨0, positive, (BitVec.add_zero p).symm⟩

theorem Within.shift (within : Within (p + BitVec.ofNat 64 m) n t) : Within p (m + n) t := by
  obtain ⟨k, below, rfl⟩ := within
  exact ⟨m + k, by omega, by rw [BitVec.ofNat_add, BitVec.add_assoc]⟩

theorem Within.mono (within : Within p m t) (le : m ≤ n) : Within p n t := by
  obtain ⟨k, below, rfl⟩ := within
  exact ⟨k, by omega, rfl⟩

/-- The scan ends, and reads tokens in the range only. -/
def TokensIn (loop : ℕ → Option (List Word)) (p : Word) (n : ℕ) : Prop :=
  ∃ tokens, EndsWith loop tokens ∧ ∀ t ∈ tokens, Within p n t

/-- One token, and the others behind it. -/
theorem TokensIn.step (positive : 0 < m) (later : TokensIn rest (p + BitVec.ofNat 64 m) n)
    (unfolds : ∀ fuel, loop (fuel + 1) = (rest fuel).map (p :: ·)) : TokensIn loop p (m + n) := by
  obtain ⟨tokens, ends, within⟩ := later
  refine ⟨p :: tokens, (ends.map (p :: ·)).round unfolds, fun t member => ?_⟩
  rcases List.mem_cons.mp member with rfl | behind
  · exact .start (by omega)
  · exact (within t behind).shift

/-- The last token. -/
theorem TokensIn.last (positive : 0 < n) (unfolds : ∀ fuel, loop (fuel + 1) = some [p]) :
    TokensIn loop p n := by
  refine ⟨[p], (EndsWith.const [p]).round unfolds, fun t member => ?_⟩
  rw [List.mem_singleton.mp member]
  exact .start positive

end Ranges

/-! ## The tokens of `skip_node` -/

section Skipping

variable {memory : ByteMemory} {p : Word} {level n : ℕ} {more : List UInt8}

theorem skipTokens_items {items : List Item} (aligned : p.toNat % 4 = 0)
    (stored : Stored memory p (items.flatMap Item.encode ++ more))
    (later : TokensIn (fun fuel => memory.skipNodeTokens fuel (level + 1)
      (p + BitVec.ofNat 64 (items.flatMap Item.encode).length))
      (p + BitVec.ofNat 64 (items.flatMap Item.encode).length) n) :
    TokensIn (fun fuel => memory.skipNodeTokens fuel (level + 1) p)
      p ((items.flatMap Item.encode).length + n) := by
  induction items generalizing p with
  | nil =>
    rw [List.flatMap_nil, List.length_nil, BitVec.add_zero] at later
    rwa [List.flatMap_nil, List.length_nil, Nat.zero_add]
  | cons item rest ih =>
    rw [List.flatMap_cons, List.append_assoc] at stored
    rw [List.flatMap_cons, ← add_lengths] at later
    have next := ih (aligned_add aligned (length_item_mod item)) stored.right later
    rw [List.flatMap_cons, List.length_append, Nat.add_assoc]
    cases item with
    | nop =>
      have token := fdt32ToCpu_be32 stored.left
      refine next.step (by decide) fun fuel => ?_
      simp [ByteMemory.skipNodeTokens, token, fdtNop, fdtBeginNode, fdtEndNode,
        fdtProp, fdtEnd, Item.encode]
    | property property =>
      have token := fdt32ToCpu_be32 stored.left.left
      have value := skipValue_property aligned stored
      refine next.step (by simp [Item.encode]) fun fuel => ?_
      simp only [ByteMemory.skipNodeTokens, token, value]
      rfl

theorem skipTokens_end (token : memory.fdt32ToCpu p = fdtEndNode)
    (later : TokensIn (fun fuel => memory.skipNodeTokens fuel level (p + 4#64)) (p + 4#64) n) :
    TokensIn (fun fuel => memory.skipNodeTokens fuel (level + 1) p) p (4 + n) := by
  refine TokensIn.step (by decide) later fun fuel => ?_
  simp [ByteMemory.skipNodeTokens, token, fdtBeginNode, fdtEndNode]

private theorem skipTokens_opening {name : CString} {items : List Item} (aligned : p.toNat % 4 = 0)
    (stored : Stored memory p (opening name items ++ more))
    (later : TokensIn (fun fuel =>
      memory.skipNodeTokens fuel (level + 2) (p + BitVec.ofNat 64 (opening name items).length))
      (p + BitVec.ofNat 64 (opening name items).length) n) :
    TokensIn (fun fuel => memory.skipNodeTokens fuel (level + 1) p)
      p ((opening name items).length + n) := by
  obtain ⟨token, -, named, contents⟩ := opening_parts aligned stored
  have whole : (opening name items).length =
      (be32 fdtBeginNode ++ padded 4 (name.bytes ++ [0])).length +
      (items.flatMap Item.encode).length := by
    rw [opening, ← List.append_assoc, List.length_append]
  rw [whole, BitVec.ofNat_add, ← BitVec.add_assoc] at later
  obtain ⟨tokens, ends, within⟩ := skipTokens_items (aligned_name aligned) contents later
  rw [whole, Nat.add_assoc]
  have positive : 0 < (be32 fdtBeginNode ++ padded 4 (name.bytes ++ [0])).length := by
    rw [List.length_append, length_be32]
    omega
  refine TokensIn.step positive ⟨tokens, named.bind ends, within⟩ fun fuel => ?_
  simp only [ByteMemory.skipNodeTokens, token, if_true]

private theorem skipTokens_subnodes {subnodes : Subnodes} (aligned : p.toNat % 4 = 0)
    (stored : Stored memory p (subnodes.encode ++ more))
    (later : TokensIn (fun fuel =>
      memory.skipNodeTokens fuel (level + 1) (p + BitVec.ofNat 64 subnodes.encode.length))
      (p + BitVec.ofNat 64 subnodes.encode.length) n) :
    TokensIn (fun fuel => memory.skipNodeTokens fuel (level + 1) p)
      p (subnodes.encode.length + n) := by
  induction subnodes generalizing p level more n with
  | nil =>
    rw [Subnodes.encode, List.length_nil, BitVec.add_zero] at later
    rwa [Subnodes.encode, List.length_nil, Nat.zero_add]
  | nop rest ih =>
    rw [Subnodes.encode, List.append_assoc] at stored
    rw [Subnodes.encode, ← add_lengths] at later
    have token := fdt32ToCpu_be32 stored.left
    rw [Subnodes.encode, List.length_append, Nat.add_assoc]
    refine (ih (aligned_add aligned (show 4 % 4 = 0 from rfl)) stored.right later).step
      (by decide) fun fuel => ?_
    simp [ByteMemory.skipNodeTokens, token, fdtNop, fdtBeginNode, fdtEndNode, fdtProp, fdtEnd]
  | cons name items subnodes rest ihInside ihRest =>
    rw [Subnodes.encode, List.append_assoc, List.append_assoc, List.append_assoc] at stored
    rw [Subnodes.encode, ← add_lengths, ← add_lengths, ← add_lengths] at later
    have body := aligned_add aligned (length_opening_mod name items)
    have ending := aligned_add body (length_subnodes_mod subnodes)
    have behind := aligned_add ending (show 4 % 4 = 0 from rfl)
    have token := fdt32ToCpu_be32 stored.right.right.left
    have closed := skipTokens_end token (ihRest behind stored.right.right.right later)
    have inside := skipTokens_opening aligned stored (ihInside body stored.right closed)
    simp only [Subnodes.encode, List.length_append, length_be32, Nat.add_assoc] at inside ⊢
    exact inside

/-- From behind the name `skip_node` reads tokens of the node only. -/
private theorem skipNodeTokens_in {items : List Item} {subnodes : Subnodes}
    (aligned : p.toNat % 4 = 0) (stored : Stored memory p
      (items.flatMap Item.encode ++ (subnodes.encode ++ (be32 fdtEndNode ++ more)))) :
    TokensIn (fun fuel => memory.skipNodeTokens fuel 1 p) p
      ((items.flatMap Item.encode).length + (subnodes.encode.length + 4)) := by
  have body := aligned_add aligned (length_items_mod items)
  have none : TokensIn (fun fuel =>
      memory.skipNodeTokens fuel 0 (p + BitVec.ofNat 64 (items.flatMap Item.encode).length +
      BitVec.ofNat 64 subnodes.encode.length + 4#64))
      (p + BitVec.ofNat 64 (items.flatMap Item.encode).length +
      BitVec.ofNat 64 subnodes.encode.length + 4#64) 0 := by
    refine ⟨[], (EndsWith.const []).round fun fuel => ?_, nofun⟩
    rw [ByteMemory.skipNodeTokens]
  have closed := skipTokens_end (fdt32ToCpu_be32 stored.right.right.left) none
  exact skipTokens_items aligned stored (skipTokens_subnodes body stored.right closed)

end Skipping

/-! ## The tokens of `fdt_getprop` -/

section Properties

variable {memory : ByteMemory} {strings p : Word} {name : List UInt8} {more : List UInt8}

private theorem getpropTokens_subnodes {subnodes : Subnodes}
    (stored : Stored memory p (subnodes.encode ++ (be32 fdtEndNode ++ more))) :
    TokensIn (fun fuel => memory.fdtGetpropLoopTokens strings name fuel p)
      p (subnodes.encode.length + 4) := by
  induction subnodes generalizing p with
  | nil =>
    rw [Subnodes.encode, List.nil_append] at stored
    refine TokensIn.last (by decide) fun fuel => ?_
    simp [ByteMemory.fdtGetpropLoopTokens, fdt32ToCpu_be32 stored.left, fdtEndNode, fdtProp, fdtNop]
  | nop rest ih =>
    rw [Subnodes.encode, List.append_assoc] at stored
    have token := fdt32ToCpu_be32 stored.left
    rw [Subnodes.encode, List.length_append, Nat.add_assoc]
    refine (ih stored.right).step (by decide) fun fuel => ?_
    simp [ByteMemory.fdtGetpropLoopTokens, token, fdtProp, fdtNop]
  | cons name items inner rest _ _ =>
    refine TokensIn.last (by omega) fun fuel => ?_
    simp [ByteMemory.fdtGetpropLoopTokens, fdt32ToCpu_be32 stored.left.left.left,
      fdtBeginNode, fdtProp, fdtNop]

private theorem getpropTokens_items {items : List Item} {subnodes : Subnodes}
    (aligned : p.toNat % 4 = 0) (stored : Stored memory p
      (items.flatMap Item.encode ++ (subnodes.encode ++ (be32 fdtEndNode ++ more)))) :
    TokensIn (fun fuel => memory.fdtGetpropLoopTokens strings name fuel p) p
      ((items.flatMap Item.encode).length + (subnodes.encode.length + 4)) := by
  induction items generalizing p with
  | nil =>
    rw [List.flatMap_nil, List.length_nil, Nat.zero_add]
    exact getpropTokens_subnodes stored
  | cons item rest ih =>
    rw [List.flatMap_cons, List.append_assoc] at stored
    have next := ih (aligned_add aligned (length_item_mod item)) stored.right
    rw [List.flatMap_cons, List.length_append, Nat.add_assoc]
    cases item with
    | nop =>
      have token := fdt32ToCpu_be32 stored.left
      refine next.step (by decide) fun fuel => ?_
      simp [ByteMemory.fdtGetpropLoopTokens, token, fdtProp, fdtNop, Item.encode]
    | property property =>
      have token := fdt32ToCpu_be32 stored.left.left
      have value := skipValue_property aligned stored
      by_cases found :
        memory.strcmp (strings + (memory.fdt32ToCpu (p + 4#64 + 4#64)).setWidth 64) name = 0
      · refine TokensIn.last (by omega) fun fuel => ?_
        simp only [ByteMemory.fdtGetpropLoopTokens, token, if_true, found, Option.map_some]
      · refine next.step (by simp [Item.encode]) fun fuel => ?_
        simp only [ByteMemory.fdtGetpropLoopTokens, token, if_true, if_neg found, value]

theorem length_node (node : Node) : node.encode.length =
    (be32 fdtBeginNode ++ padded 4 (node.name.bytes ++ [0])).length +
      ((node.items.flatMap Item.encode).length + (node.subnodes.encode.length + 4)) := by
  simp only [Node.encode, opening, List.length_append, length_be32]
  omega

end Properties

/-! ## The regions of a node -/

/-- The value is cells of 64 bits in pairs, the first of which is this one. -/
def StartsWith (property : Property) (base size : Word) : Prop :=
  ∃ more, property.value = be64 base ++ (be64 size ++ more) ∧ more.length % 16 = 0

/-- The region is the first pair of cells of the property, with its start in the linear map. -/
def Describes (property : Property) (region : ReservedRegion) : Prop :=
  ∃ base size, StartsWith property base size ∧ region = ⟨physToVirt base, physToVirt base + size⟩

def reg : CString := ⟨regName, by decide⟩
def allocRanges : CString := ⟨allocRangesName, by decide⟩

/-- The properties of a node that the scan looks for. -/
def Node.described (node : Node) : List Property :=
  (node.firstProperty reg).toList ++ (node.firstProperty allocRanges).toList

/-- The direct children, with their distances from the first token of the subnodes. -/
def children : Subnodes → List (ℕ × Node)
  | .nil => []
  | .nop rest => (children rest).map fun child => (4 + child.1, child.2)
  | .cons name items subnodes rest => (0, ⟨name, items, subnodes⟩) ::
      (children rest).map fun child =>
      ((Node.mk name items subnodes).encode.length + child.1, child.2)

/-- The properties that describe the regions of the direct children, in order. -/
def listed (subnodes : Subnodes) : List Property :=
  (children subnodes).flatMap fun child => Node.described child.2

section Regions

variable {memory : ByteMemory} {fdt p : Word} {node : Node} {more : List UInt8}

/-- The tokens of a node in memory, and the names of its properties. -/
structure NodeAt (memory : ByteMemory) (fdt p : Word) (node : Node) (more : List UInt8) : Prop where
  aligned : p.toNat % 4 = 0
  stored : Stored memory p (node.encode ++ more)
  strings : ∀ property ∈ properties node.items,
    Stored memory (memory.fdtStringsBase fdt + property.nameoff.setWidth 64)
    (property.name.bytes ++ [0])

theorem NodeAt.parts (here : NodeAt memory fdt p node more) :
    memory.fdt32ToCpu p = fdtBeginNode ∧
    EndsWith (fun fuel => memory.skipName fuel (p + 4#64))
      (p + BitVec.ofNat 64 (be32 fdtBeginNode ++ padded 4 (node.name.bytes ++ [0])).length) ∧
    Stored memory
      (p + BitVec.ofNat 64 (be32 fdtBeginNode ++ padded 4 (node.name.bytes ++ [0])).length)
      (node.items.flatMap Item.encode ++ (node.subnodes.encode ++ (be32 fdtEndNode ++ more))) := by
  have stored := here.stored
  rw [Node.encode, List.append_assoc, List.append_assoc] at stored
  obtain ⟨token, -, named, contents⟩ := opening_parts here.aligned stored
  exact ⟨token, named, contents⟩

/-- At the node with this offset the scan adds the region of a property that the node has. -/
theorem propRegions_at (here : NodeAt memory fdt p node more) {offset : BitVec 32}
    (place : memory.fdtStructBase fdt + offset.signExtend 64 = p) (name : CString)
    (pairs : ∀ property, node.firstProperty name = some property →
      ∃ base size, StartsWith property base size) :
    ∃ scan, EndsWith (fun fuel => memory.propRegions fuel fdt offset name.bytes) scan ∧
      List.Forall₂ Describes (node.firstProperty name).toList scan.regions ∧
      ∀ t ∈ scan.tokens, Within p node.encode.length t := by
  obtain ⟨token, named, contents⟩ := here.parts
  obtain ⟨result, ends, handsOut⟩ :=
    getprop_items name (aligned_name here.aligned) contents here.strings
  obtain ⟨tokens, endsTokens, within⟩ :
      TokensIn (fun fuel => memory.fdtGetpropTokens fuel fdt offset name.bytes) p
      node.encode.length := by
    have loop : TokensIn (fun fuel =>
        memory.fdtGetpropLoopTokens (memory.fdtStringsBase fdt) name.bytes fuel _) _ _ :=
      getpropTokens_items (aligned_name here.aligned) contents
    obtain ⟨tokens, endsTokens, within⟩ := loop
    refine ⟨p :: tokens, ?_, fun t member => ?_⟩
    · have all := (named.bind endsTokens).map (p :: ·)
      obtain ⟨enough, all⟩ := all
      refine ⟨enough, fun fuel large => ?_⟩
      have result := all fuel large
      simp only [ByteMemory.fdtGetpropTokens, place, token, ne_eq, not_true_eq_false, if_false]
      exact result
    · rw [length_node]
      rcases List.mem_cons.mp member with rfl | behind
      · exact .start (by omega)
      · exact (within t behind).shift
  have found : EndsWith (fun fuel => memory.fdtGetprop fuel fdt offset name.bytes) result := by
    obtain ⟨enough, ends⟩ := named.bind ends
    refine ⟨enough, fun fuel large => ?_⟩
    have result := ends fuel large
    simp only [ByteMemory.fdtGetprop, place, token, ne_eq, not_true_eq_false, if_false]
    exact result
  refine ⟨⟨result.toList.map fun found => memory.cellRegion found.1, tokens⟩, ?_, ?_, within⟩
  · exact found.bind (endsTokens.bind (EndsWith.const _))
  · rw [Node.firstProperty] at pairs ⊢
    cases first : (properties node.items).find? fun property =>
      property.name.bytes = name.bytes with
    | none =>
      rw [first] at handsOut
      obtain rfl := handsOut
      exact .nil
    | some property =>
      rw [first] at handsOut
      obtain ⟨value, rfl, stored⟩ := handsOut
      obtain ⟨base, size, start⟩ := pairs property first
      refine .cons ⟨base, size, start, ?_⟩ .nil
      obtain ⟨more, shape, -⟩ := start
      rw [shape] at stored
      have second : Stored memory (value + 8#64) (be64 size ++ more) := stored.right
      simp only [ByteMemory.cellRegion, fdt64ToCpu_be64 stored.left, fdt64ToCpu_be64 second.left]

end Regions

/-! ## The loop over the children -/

section Children

variable {memory : ByteMemory} {fdt p : Word} {node : Node} {more : List UInt8} {offset : ℕ}

/-- The offset of a node as an `int` leads back to it below 2 ^ 31, and otherwise 2 ^ 32 bytes
before it. -/
theorem signExtend_offset (bound : offset < 2 ^ 32) : (BitVec.ofNat 32 offset).signExtend 64 =
    if offset < 2 ^ 31 then BitVec.ofNat 64 offset
    else BitVec.ofNat 64 offset - BitVec.ofNat 64 (2 ^ 32) := by
  split
  · rename_i small
    have positive : (BitVec.ofNat 32 offset).msb = false := by
      rw [BitVec.msb_eq_false_iff_two_mul_lt, BitVec.toNat_ofNat]
      omega
    rw [BitVec.signExtend_eq_setWidth_of_msb_false positive, setWidth_filesize bound]
  · rename_i large
    have negative : (BitVec.ofNat 32 offset).msb = true := by
      rw [BitVec.msb_eq_true_iff_two_mul_ge, BitVec.toNat_ofNat]
      omega
    apply BitVec.eq_of_toNat_eq
    rw [BitVec.toNat_signExtend, negative, BitVec.toNat_setWidth, BitVec.toNat_sub]
    simp only [BitVec.toNat_ofNat, if_true]
    omega

/-- A pointer as an offset that an `int` holds. -/
theorem offset_eq (here : p = memory.fdtStructBase fdt + BitVec.ofNat 64 offset) :
    (p - memory.fdtStructBase fdt).setWidth 32 = BitVec.ofNat 32 offset := by
  rw [here, BitVec.add_comm, BitVec.add_sub_cancel]
  apply BitVec.eq_of_toNat_eq
  rw [BitVec.toNat_setWidth, BitVec.toNat_ofNat, BitVec.toNat_ofNat]
  omega

/-- What a scan has found before the rest. -/
def before (regions : List ReservedRegion) (tokens : List Word) (rest : ReservedScan) :
    ReservedScan :=
  ⟨regions ++ rest.regions, tokens ++ rest.tokens⟩

theorem before_injective (regions : List ReservedRegion) (tokens : List Word)
    {one other : ReservedScan} (same : before regions tokens one = before regions tokens other) :
    one = other := by
  rw [before, before, ReservedScan.mk.injEq, List.append_cancel_left_eq,
    List.append_cancel_left_eq] at same
  cases one
  cases other
  exact congrArg₂ ReservedScan.mk same.1 same.2

/-- All that the scan does at a child whose offset an `int` holds. -/
theorem reservedChildren_round (at_ : NodeAt memory fdt p node more)
    (here : p = memory.fdtStructBase fdt + BitVec.ofNat 64 offset) (small : offset < 2 ^ 31)
    (pairs : ∀ property ∈ Node.described node, ∃ base size, StartsWith property base size) :
    ∃ regions tokens, List.Forall₂ Describes (Node.described node) regions ∧
      (∀ t ∈ tokens, Within p node.encode.length t) ∧
      ∃ enough, ∀ fuel ≥ enough, memory.reservedChildren fdt (fuel + 1) p =
        (memory.skipNops fuel (p + BitVec.ofNat 64 node.encode.length)).bind fun next =>
          (memory.reservedChildren fdt fuel next.1).map (before regions (tokens ++ next.2)) := by
  obtain ⟨token, named, contents⟩ := at_.parts
  have place : memory.fdtStructBase fdt +
      ((p - memory.fdtStructBase fdt).setWidth 32).signExtend 64 = p := by
    rw [offset_eq here, signExtend_offset (by omega), if_pos small, here]
  have pairsOf : ∀ name,
      (∀ property, node.firstProperty name = some property → property ∈ Node.described node) →
      ∀ property, node.firstProperty name = some property →
        ∃ base size, StartsWith property base size :=
    fun name described property found => pairs property (described property found)
  obtain ⟨regScan, regEnds, regRegions, regTokens⟩ := propRegions_at at_ place reg
    (pairsOf reg fun property found => List.mem_append_left _ (Option.mem_toList.mpr found))
  obtain ⟨allocScan, allocEnds, allocRegions, allocTokens⟩ := propRegions_at at_ place allocRanges
    (pairsOf allocRanges fun property found =>
      List.mem_append_right _ (Option.mem_toList.mpr found))
  have skipped := skipNode_ends (aligned_name at_.aligned) contents
  obtain ⟨skipTokens, skipEnds, skipWithin⟩ := skipNodeTokens_in (aligned_name at_.aligned) contents
  have behind : p +
      BitVec.ofNat 64 (be32 fdtBeginNode ++ padded 4 (node.name.bytes ++ [0])).length +
      BitVec.ofNat 64 (node.items.flatMap Item.encode ++
        (node.subnodes.encode ++ be32 fdtEndNode)).length =
      p + BitVec.ofNat 64 node.encode.length := by
    rw [add_lengths, Node.encode, opening]
    simp only [List.append_assoc]
  rw [behind] at skipped
  refine ⟨regScan.regions ++ allocScan.regions,
    p :: (regScan.tokens ++ allocScan.tokens ++ skipTokens), ?_, ?_, ?_⟩
  · exact List.rel_append regRegions allocRegions
  · intro t member
    rw [List.mem_cons, List.mem_append, List.mem_append] at member
    rcases member with rfl | (inReg | inAlloc) | inSkip
    · rw [length_node]
      exact .start (by rw [List.length_append, length_be32]; omega)
    · exact regTokens t inReg
    · exact allocTokens t inAlloc
    · rw [length_node]
      exact (skipWithin t inSkip).shift
  · obtain ⟨one, named⟩ := named
    obtain ⟨two, regEnds⟩ := regEnds
    obtain ⟨three, allocEnds⟩ := allocEnds
    obtain ⟨four, skipped⟩ := skipped
    obtain ⟨five, skipEnds⟩ := skipEnds
    refine ⟨one + two + three + four + five, fun fuel large => ?_⟩
    have first := named fuel (by omega)
    have second : memory.propRegions fuel fdt _ regName = some regScan := regEnds fuel (by omega)
    have third : memory.propRegions fuel fdt _ allocRangesName = some allocScan :=
      allocEnds fuel (by omega)
    have fourth := skipped fuel (by omega)
    have fifth := skipEnds fuel (by omega)
    simp only at first fourth fifth
    simp only [ByteMemory.reservedChildren, token, ne_eq, not_true_eq_false, if_false, first,
      second, third, fourth, fifth, Option.bind_eq_bind, Option.bind_some, Option.getD_some]
    congr 1
    funext next
    cases memory.reservedChildren fdt fuel next.1 with
    | none => rfl
    | some rest =>
      simp only [Option.bind_some, Option.map_some, before, List.append_assoc, List.cons_append]

/-- Where the loop goes on behind its padding, it adds the regions of the children and ends in the
node. -/
private theorem children_scan {subnodes : Subnodes} (aligned : p.toNat % 4 = 0)
    (stored : Stored memory p (subnodes.encode ++ (be32 fdtEndNode ++ more)))
    (strings : ∀ property ∈ subnodes.properties,
      Stored memory (memory.fdtStringsBase fdt + property.nameoff.setWidth 64)
      (property.name.bytes ++ [0]))
    (here : p = memory.fdtStructBase fdt + BitVec.ofNat 64 offset)
    (small : ∀ child ∈ children subnodes, offset + child.1 < 2 ^ 31)
    (pairs : ∀ property ∈ listed subnodes, ∃ base size, StartsWith property base size) :
    ∃ next scan, EndsWith (fun fuel => memory.skipNops fuel p) next ∧
      EndsWith (fun fuel => memory.reservedChildren fdt fuel next.1) scan ∧
      List.Forall₂ Describes (listed subnodes) scan.regions ∧
      ∀ t ∈ next.2 ++ scan.tokens, Within p (subnodes.encode.length + 4) t := by
  induction subnodes generalizing p offset with
  | nil =>
    rw [Subnodes.encode, List.nil_append] at stored
    have token := fdt32ToCpu_be32 stored.left
    refine ⟨(p, [p]), ⟨[], [p]⟩, (EndsWith.const _).round fun fuel => ?_,
      (EndsWith.const _).round fun fuel => ?_, .nil, fun t member => ?_⟩
    · simp [ByteMemory.skipNops, token, fdtEndNode, fdtNop]
    · simp [ByteMemory.reservedChildren, token, fdtEndNode, fdtBeginNode]
    · simp only [List.cons_append, List.nil_append, List.mem_cons, List.not_mem_nil,
        or_false, or_self] at member
      exact member ▸ .start (by omega)
  | nop rest ih =>
    rw [Subnodes.encode, List.append_assoc] at stored
    have token := fdt32ToCpu_be32 stored.left
    have behind : p + 4#64 = memory.fdtStructBase fdt + BitVec.ofNat 64 (offset + 4) := by
      rw [here, BitVec.add_assoc, ← BitVec.ofNat_add]
    obtain ⟨next, scan, nops, ends, regions, within⟩ :=
      ih (aligned_add aligned (show 4 % 4 = 0 from rfl)) stored.right
      strings behind (fun child member => by
        have shifted := small _ (List.mem_map_of_mem member)
        simp only at shifted
        omega) (by simpa only [listed, children, List.flatMap_map] using pairs)
    refine ⟨(next.1, p :: next.2), scan, ?_, ends, ?_, fun t member => ?_⟩
    · refine (nops.map fun reached => (reached.1, p :: reached.2)).round fun fuel => ?_
      simp only [ByteMemory.skipNops, token, if_true]
    · simpa only [listed, children, List.flatMap_map] using regions
    · rw [Subnodes.encode, List.length_append, length_be32, Nat.add_assoc]
      rcases List.mem_cons.mp member with rfl | later
      · exact .start (by omega)
      · exact (within t later).shift
  | cons name items subnodes rest _ ih =>
    have shape : (Subnodes.cons name items subnodes rest).encode =
        (Node.mk name items subnodes).encode ++ rest.encode := by
      simp only [Subnodes.encode, Node.encode, List.append_assoc]
    rw [shape, List.append_assoc] at stored
    have at_ : NodeAt memory fdt p ⟨name, items,
        subnodes⟩ (rest.encode ++ (be32 fdtEndNode ++ more)) :=
      ⟨aligned, stored, fun property member => strings property (List.mem_append_left _ member)⟩
    obtain ⟨token, -, -⟩ := at_.parts
    have described : listed (.cons name items subnodes rest) =
        Node.described ⟨name, items, subnodes⟩ ++ listed rest := by
      simp only [listed, children, List.flatMap_cons, List.flatMap_map]
    rw [described] at pairs ⊢
    have own := small (0, ⟨name, items, subnodes⟩) List.mem_cons_self
    obtain ⟨regions, tokens, regionsDescribe, tokensWithin, enough, round⟩ :=
      reservedChildren_round at_ here own
      fun property member => pairs property (List.mem_append_left _ member)
    have behind : p + BitVec.ofNat 64 (Node.mk name items subnodes).encode.length =
        memory.fdtStructBase fdt +
        BitVec.ofNat 64 (offset + (Node.mk name items subnodes).encode.length) := by
      rw [here, BitVec.add_assoc, ← BitVec.ofNat_add]
    obtain ⟨next, scan, nops, ends, restRegions, within⟩ :=
      ih (aligned_add aligned (length_node_mod _)) stored.right
      (fun property member =>
        strings property (List.mem_append_right _ (List.mem_append_right _ member))) behind
      (fun child member => by
        have shifted := small _ (List.mem_cons_of_mem _ (List.mem_map_of_mem member))
        simp only at shifted
        omega) fun property member => pairs property (List.mem_append_right _ member)
    refine ⟨(p, [p]), before regions (tokens ++ next.2) scan,
      (EndsWith.const _).round fun fuel => ?_, ?_,
      List.rel_append regionsDescribe restRegions, fun t member => ?_⟩
    · simp [ByteMemory.skipNops, token, fdtBeginNode, fdtNop]
    · obtain ⟨first, nops⟩ := nops
      obtain ⟨second, ends⟩ := ends
      refine ⟨enough + first + second + 1, fun fuel large => ?_⟩
      obtain ⟨fuel, rfl⟩ := Nat.exists_eq_add_one_of_ne_zero (show fuel ≠ 0 by omega)
      have one := nops fuel (by omega)
      have two := ends fuel (by omega)
      simp only at one two
      simp only [round fuel (by omega), one, Option.bind_some, two, Option.map_some]
    · rw [shape, List.length_append, Nat.add_assoc]
      have positive : 0 < (Node.mk name items subnodes).encode.length := by
        rw [length_node]
        omega
      rcases List.mem_cons.mp member with rfl | later
      · exact .start (by omega)
      · have parts : t ∈ tokens ++ (next.2 ++ scan.tokens) :=
          List.append_assoc tokens next.2 scan.tokens ▸ later
        rcases List.mem_append.mp parts with own | others
        · exact (tokensWithin t own).mono (by omega)
        · exact (within t others).shift

/-- A child whose offset no `int` holds is looked up elsewhere. -/
private theorem children_leave {subnodes : Subnodes} (aligned : p.toNat % 4 = 0)
    (stored : Stored memory p (subnodes.encode ++ (be32 fdtEndNode ++ more)))
    (strings : ∀ property ∈ subnodes.properties,
      Stored memory (memory.fdtStringsBase fdt + property.nameoff.setWidth 64)
      (property.name.bytes ++ [0]))
    (here : p = memory.fdtStructBase fdt + BitVec.ofNat 64 offset)
    (fits : offset + subnodes.encode.length < 2 ^ 32)
    (large : ∃ child ∈ children subnodes, 2 ^ 31 ≤ offset + child.1)
    (pairs : ∀ property ∈ listed subnodes, ∃ base size, StartsWith property base size) :
    ∃ next, EndsWith (fun fuel => memory.skipNops fuel p) next ∧
      ∀ scan, EndsWith (fun fuel => memory.reservedChildren fdt fuel next.1) scan →
        ∃ k < 2 ^ 32, memory.fdtStructBase fdt + (BitVec.ofNat 64 k - BitVec.ofNat 64 (2 ^ 32)) ∈
        scan.tokens := by
  induction subnodes generalizing p offset with
  | nil =>
    obtain ⟨child, member, -⟩ := large
    exact absurd member List.not_mem_nil
  | nop rest ih =>
    rw [Subnodes.encode, List.append_assoc] at stored
    rw [Subnodes.encode, List.length_append, length_be32] at fits
    have token := fdt32ToCpu_be32 stored.left
    have behind : p + 4#64 = memory.fdtStructBase fdt + BitVec.ofNat 64 (offset + 4) := by
      rw [here, BitVec.add_assoc, ← BitVec.ofNat_add]
    obtain ⟨child, member, far⟩ := large
    obtain ⟨inner, memberInner, rfl⟩ := List.mem_map.mp member
    obtain ⟨next, nops, leaves⟩ :=
      ih (aligned_add aligned (show 4 % 4 = 0 from rfl)) stored.right strings behind
      (by omega) ⟨inner, memberInner, by simp only at far; omega⟩
      (by simpa only [listed, children, List.flatMap_map] using pairs)
    refine ⟨(next.1, p :: next.2), ?_, leaves⟩
    refine (nops.map fun reached => (reached.1, p :: reached.2)).round fun fuel => ?_
    simp only [ByteMemory.skipNops, token, if_true]
  | cons name items subnodes rest _ ih =>
    have shape : (Subnodes.cons name items subnodes rest).encode =
        (Node.mk name items subnodes).encode ++ rest.encode := by
      simp only [Subnodes.encode, Node.encode, List.append_assoc]
    rw [shape, List.append_assoc] at stored
    rw [shape, List.length_append] at fits
    have at_ : NodeAt memory fdt p ⟨name, items,
        subnodes⟩ (rest.encode ++ (be32 fdtEndNode ++ more)) :=
      ⟨aligned, stored, fun property member => strings property (List.mem_append_left _ member)⟩
    obtain ⟨token, -, -⟩ := at_.parts
    have described : listed (.cons name items subnodes rest) =
        Node.described ⟨name, items, subnodes⟩ ++ listed rest := by
      simp only [listed, children, List.flatMap_cons, List.flatMap_map]
    rw [described] at pairs
    refine ⟨(p, [p]), (EndsWith.const _).round fun fuel => ?_, fun scan ends => ?_⟩
    · simp [ByteMemory.skipNops, token, fdtBeginNode, fdtNop]
    · rcases Nat.lt_or_ge offset (2 ^ 31) with own | far
      · obtain ⟨regions, tokens, -, -, enough, round⟩ := reservedChildren_round at_ here own
          fun property member => pairs property (List.mem_append_left _ member)
        have behind : p + BitVec.ofNat 64 (Node.mk name items subnodes).encode.length =
            memory.fdtStructBase fdt +
            BitVec.ofNat 64 (offset + (Node.mk name items subnodes).encode.length) := by
          rw [here, BitVec.add_assoc, ← BitVec.ofNat_add]
        obtain ⟨child, member, far⟩ := large
        rcases List.mem_cons.mp member with rfl | later
        · simp only [Nat.add_zero] at far
          omega
        · obtain ⟨inner, memberInner, rfl⟩ := List.mem_map.mp later
          obtain ⟨next, nops, leaves⟩ := ih (aligned_add aligned (length_node_mod _)) stored.right
            (fun property member =>
              strings property (List.mem_append_right _ (List.mem_append_right _ member))) behind
            (by omega) ⟨inner, memberInner, by simp only at far; omega⟩
            fun property member => pairs property (List.mem_append_right _ member)
          have rounds := ends.of_round ⟨enough, round⟩
          obtain ⟨inside, innerEnds, rfl⟩ := (nops.of_bind rounds).of_map (before_injective _ _)
          obtain ⟨k, bound, outside⟩ := leaves inside innerEnds
          exact ⟨k, bound, List.mem_append_right _ outside⟩
      · have place : memory.fdtStructBase fdt +
          ((p - memory.fdtStructBase fdt).setWidth 32).signExtend 64 =
            memory.fdtStructBase fdt + (BitVec.ofNat 64 offset - BitVec.ofNat 64 (2 ^ 32)) := by
          rw [offset_eq here, signExtend_offset (by omega), if_neg (not_lt.mpr far)]
        obtain ⟨enough, ends⟩ := ends
        have found := ends (enough + 1) (Nat.le_succ enough)
        simp only [ByteMemory.reservedChildren, token, ne_eq, not_true_eq_false, if_false,
          Option.bind_eq_bind] at found
        obtain ⟨behindName, -, found⟩ := Option.bind_eq_some_iff.mp found
        obtain ⟨regScan, looked, found⟩ := Option.bind_eq_some_iff.mp found
        obtain ⟨allocScan, -, found⟩ := Option.bind_eq_some_iff.mp found
        obtain ⟨skipped, -, found⟩ := Option.bind_eq_some_iff.mp found
        obtain ⟨skippedTokens, -, found⟩ := Option.bind_eq_some_iff.mp found
        obtain ⟨next, -, found⟩ := Option.bind_eq_some_iff.mp found
        obtain ⟨inside, -, found⟩ := Option.bind_eq_some_iff.mp found
        obtain rfl := Option.some.inj found
        simp only [ByteMemory.propRegions, Option.bind_eq_bind] at looked
        obtain ⟨prop, -, looked⟩ := Option.bind_eq_some_iff.mp looked
        obtain ⟨tokens, read, looked⟩ := Option.bind_eq_some_iff.mp looked
        obtain rfl := Option.some.inj looked
        obtain ⟨others, -, rfl⟩ := Option.map_eq_some_iff.mp read
        refine ⟨offset, by omega, place ▸ ?_⟩
        simp only [List.cons_append, List.mem_cons, true_or, or_true]

end Children

/-! ## The first child -/

section First

variable {memory : ByteMemory} {p : Word} {more : List UInt8}

/-- In front of a child the loop over the properties stops where the loop over the padding does. -/
theorem toNode_subnodes {subnodes : Subnodes} (nonempty : children subnodes ≠ [])
    (stored : Stored memory p (subnodes.encode ++ more))
    {next : Word × List Word} (nops : EndsWith (fun fuel => memory.skipNops fuel p) next) :
    EndsWith (fun fuel => memory.skipToNode fuel p) next := by
  induction subnodes generalizing p next with
  | nil => exact absurd rfl nonempty
  | nop rest ih =>
    rw [Subnodes.encode, List.append_assoc] at stored
    have token := fdt32ToCpu_be32 stored.left
    have goesOn : children rest ≠ [] := fun none => nonempty (by rw [children, none, List.map_nil])
    have unfolds : ∀ fuel, memory.skipNops (fuel + 1) p =
        (memory.skipNops fuel (p + 4#64)).map fun reached => (reached.1, p :: reached.2) := by
      intro fuel
      simp only [ByteMemory.skipNops, token, if_true]
    obtain ⟨inner, ends, rfl⟩ :=
      (nops.of_round ⟨0, fun fuel _ => unfolds fuel⟩).of_map fun {one other} same =>
      Prod.ext (Prod.mk.inj same).1 (List.cons.inj (Prod.mk.inj same).2).2
    refine ((ih goesOn stored.right ends).map fun reached => (reached.1, p :: reached.2)).round
      fun fuel => ?_
    simp [ByteMemory.skipToNode, token, fdtNop, fdtBeginNode, fdtProp]
  | cons name items inner rest _ _ =>
    have token := fdt32ToCpu_be32 stored.left.left.left
    have here : EndsWith (fun fuel => memory.skipNops fuel p) (p, [p]) := by
      refine (EndsWith.const _).round fun fuel => ?_
      simp [ByteMemory.skipNops, token, fdtBeginNode, fdtNop]
    obtain rfl := nops.unique here
    refine (EndsWith.const _).round fun fuel => ?_
    simp [ByteMemory.skipToNode, token]

theorem toNode_items {items : List Item} (aligned : p.toNat % 4 = 0)
    (stored : Stored memory p (items.flatMap Item.encode ++ more)) {next : Word × List Word}
    (later : EndsWith (fun fuel =>
      memory.skipToNode fuel (p + BitVec.ofNat 64 (items.flatMap Item.encode).length)) next) :
    ∃ tokens, EndsWith (fun fuel => memory.skipToNode fuel p) (next.1, tokens ++ next.2) ∧
      ∀ t ∈ tokens, Within p (items.flatMap Item.encode).length t := by
  induction items generalizing p with
  | nil =>
    rw [List.flatMap_nil, List.length_nil, BitVec.add_zero] at later
    exact ⟨[], later, nofun⟩
  | cons item rest ih =>
    rw [List.flatMap_cons, List.append_assoc] at stored
    rw [List.flatMap_cons, ← add_lengths] at later
    obtain ⟨tokens, ends, within⟩ :=
      ih (aligned_add aligned (length_item_mod item)) stored.right later
    refine ⟨p :: tokens, (ends.map fun reached => (reached.1, p :: reached.2)).round fun fuel => ?_,
      fun t member => ?_⟩
    · cases item with
      | nop =>
        have token := fdt32ToCpu_be32 stored.left
        simp [ByteMemory.skipToNode, token, fdtNop, fdtBeginNode, fdtProp, Item.encode]
      | property property =>
        have token := fdt32ToCpu_be32 stored.left.left
        have value := skipValue_property aligned stored
        rw [ByteMemory.skipToNode, token, value]
        rfl
    · rw [List.flatMap_cons, List.length_append]
      rcases List.mem_cons.mp member with rfl | behind
      · refine .start ?_
        cases item <;> simp [Item.encode]
      · exact (within t behind).shift

/-- The scan reads the token it starts at. -/
private theorem toNode_start {fuel : ℕ} {next : Word × List Word}
    (found : memory.skipToNode fuel p = some next) :
    p ∈ next.2 := by
  cases fuel with
  | zero => exact absurd found (Option.some_ne_none next).symm
  | succ fuel =>
    rw [ByteMemory.skipToNode] at found
    split at found
    · obtain rfl := Option.some.inj found
      exact List.mem_cons_self
    · obtain ⟨inner, -, rfl⟩ := Option.map_eq_some_iff.mp found
      exact List.mem_cons_self

/-- Over a token that starts no node the scan goes on. -/
theorem toNode_round {fuel : ℕ} {next : Word × List Word}
    (other : memory.fdt32ToCpu p ≠ fdtBeginNode) (found : memory.skipToNode fuel p = some next) :
    ∃ fuel inner,
      memory.skipToNode fuel
        (if memory.fdt32ToCpu p = fdtProp then memory.skipValue (p + 4#64) else p + 4#64) =
        some inner ∧
      ∀ t ∈ inner.2, t ∈ next.2 := by
  cases fuel with
  | zero => exact absurd found (Option.some_ne_none next).symm
  | succ fuel =>
    rw [ByteMemory.skipToNode, if_neg other] at found
    obtain ⟨inner, there, rfl⟩ := Option.map_eq_some_iff.mp found
    exact ⟨fuel, inner, there, fun t member => List.mem_cons_of_mem p member⟩

/-- Without a child the scan reads the token behind the node. -/
private theorem toNode_leaves {subnodes : Subnodes} (none : children subnodes = [])
    (stored : Stored memory p (subnodes.encode ++ (be32 fdtEndNode ++ more))) {fuel : ℕ}
    {next : Word × List Word} (found : memory.skipToNode fuel p = some next) :
    p + BitVec.ofNat 64 (subnodes.encode.length + 4) ∈ next.2 := by
  induction subnodes generalizing p fuel next with
  | nil =>
    rw [Subnodes.encode, List.nil_append] at stored
    have token := fdt32ToCpu_be32 stored.left
    obtain ⟨fuel, inner, there, inside⟩ := toNode_round (by rw [token]; decide) found
    rw [token, if_neg (by decide)] at there
    exact inside _ (toNode_start there)
  | nop rest ih =>
    rw [Subnodes.encode, List.append_assoc] at stored
    have token := fdt32ToCpu_be32 stored.left
    obtain ⟨fuel, inner, there, inside⟩ := toNode_round (by rw [token]; decide) found
    rw [token, if_neg (by decide)] at there
    have behind := ih (List.map_eq_nil_iff.mp none) stored.right there
    rw [BitVec.add_assoc, ← BitVec.ofNat_add] at behind
    rw [Subnodes.encode, List.length_append, length_be32, Nat.add_assoc]
    exact inside _ behind
  | cons name items inner rest _ _ => exact absurd none (List.cons_ne_nil _ _)

private theorem toNode_leaves_items {items : List Item} {subnodes : Subnodes}
    (none : children subnodes = []) (aligned : p.toNat % 4 = 0) (stored : Stored memory p
      (items.flatMap Item.encode ++ (subnodes.encode ++ (be32 fdtEndNode ++ more)))) {fuel : ℕ}
    {next : Word × List Word} (found : memory.skipToNode fuel p = some next) :
    p + BitVec.ofNat 64 ((items.flatMap Item.encode).length + (subnodes.encode.length + 4)) ∈
      next.2 := by
  induction items generalizing p fuel next with
  | nil =>
    rw [List.flatMap_nil, List.length_nil, Nat.zero_add]
    exact toNode_leaves none stored found
  | cons item rest ih =>
    rw [List.flatMap_cons, List.append_assoc] at stored
    rw [List.flatMap_cons, List.length_append, Nat.add_assoc, BitVec.ofNat_add, ← BitVec.add_assoc]
    have next' := aligned_add aligned (length_item_mod item)
    cases item with
    | nop =>
      have token := fdt32ToCpu_be32 stored.left
      obtain ⟨fuel, inner, there, inside⟩ := toNode_round (by rw [token]; decide) found
      rw [token, if_neg (by decide)] at there
      exact inside _ (ih next' stored.right there)
    | property property =>
      have token := fdt32ToCpu_be32 stored.left.left
      obtain ⟨fuel, inner, there, inside⟩ := toNode_round (by rw [token]; decide) found
      rw [token, if_pos rfl, skipValue_property aligned stored] at there
      exact inside _ (ih next' stored.right there)

end First

/-! ## The whole scan -/

section Scan

variable {memory : ByteMemory} {fdt : Word} {root node : Node} {offset : ℕ}

/-- `reserved-memory`, as a part of a path. -/
def reservedSegment : Segment := ⟨reservedMemoryPath.tail, by decide, by decide, by decide⟩

/-- The scan adds the regions of the direct children, in order, and reads tokens of the node
only. -/
def Exact (memory : ByteMemory) (fdt : Word) (offset : ℕ) (node : Node) : Prop :=
  ∃ scan, EndsWith (fun fuel => memory.reservedMemory fuel fdt) scan ∧
    List.Forall₂ Describes (listed node.subnodes) scan.regions ∧
    ∀ t ∈ scan.tokens,
    Within (memory.fdtStructBase fdt + BitVec.ofNat 64 offset) node.encode.length t

/-- The node has a direct child, and the offsets of all of them are held by an `int`; or the offset
of the node is held by none, and nothing is to be found. -/
def Scannable (offset : ℕ) (node : Node) : Prop :=
  if offset < 2 ^ 31 then
    children node.subnodes ≠ [] ∧
      ∀ child ∈ children node.subnodes, offset +
      (opening node.name node.items).length + child.1 < 2 ^ 31
  else listed node.subnodes = []

/-- The node that the path leads to, its place and its contents. -/
structure Located (memory : ByteMemory) (fdt : Word) (offset : ℕ) (node : Node)
    (more : List UInt8) : Prop where
  path : EndsWith (fun fuel => memory.fdtPathOffset fuel fdt reservedMemoryPath)
    (BitVec.ofNat 32 offset)
  at_ : NodeAt memory fdt (memory.fdtStructBase fdt + BitVec.ofNat 64 offset) node more
  strings : ∀ property ∈ node.subnodes.properties,
    Stored memory (memory.fdtStringsBase fdt + property.nameoff.setWidth 64)
    (property.name.bytes ++ [0])
  fits : offset + node.encode.length < 2 ^ 32

theorem located (device : FdtAt memory fdt root)
    (found : root.locate [reservedSegment] = some (offset, node)) :
    ∃ more, Located memory fdt offset node more := by
  obtain ⟨⟨before, after, shape, rfl⟩, whole, inherits⟩ := locate_place found
  have path := fdtPathOffset_ends device [reservedSegment]
  rw [found, answer, Nat.zero_add] at path
  have tokens := device.tokens
  have fits := device.fits
  rw [shape, List.append_assoc] at tokens
  rw [shape] at fits
  simp only [List.length_append] at fits
  have strings := fun property member => device.strings property (inherits property member)
  have inside := tokens.right
  rw [List.append_assoc] at inside
  exact ⟨_, path, ⟨aligned_add device.structAligned whole, inside,
    fun property member => strings property (List.mem_append_left _ member)⟩,
    fun property member => strings property (List.mem_append_right _ member), by omega⟩

/-- Below 2 ^ 31 the scan goes through the properties, and then through the children. -/
theorem Located.unfolds {more : List UInt8} (at_ : Located memory fdt offset node more)
    (small : offset < 2 ^ 31) :
    let p := memory.fdtStructBase fdt + BitVec.ofNat 64 offset
    let behindName :=
      p + BitVec.ofNat 64 (be32 fdtBeginNode ++ padded 4 (node.name.bytes ++ [0])).length
    ∃ enough, ∀ fuel ≥ enough, memory.reservedMemory fuel fdt =
      (memory.skipToNode fuel behindName).bind fun first =>
        (memory.reservedChildren fdt fuel first.1).map (before [] (p :: first.2)) := by
  intro p behindName
  obtain ⟨-, named, -⟩ := at_.at_.parts
  obtain ⟨one, path⟩ := at_.path
  obtain ⟨two, named⟩ := named
  refine ⟨max one two, fun fuel large => ?_⟩
  have positive : (BitVec.ofNat 32 offset).toInt ≥ 0 := by
    have msb : (BitVec.ofNat 32 offset).msb = false := by
      rw [BitVec.msb_eq_false_iff_two_mul_lt, BitVec.toNat_ofNat]
      omega
    rw [BitVec.toInt_eq_toNat_of_msb msb]
    exact Int.natCast_nonneg _
  have first := path fuel ((le_max_left one two).trans large)
  have second := named fuel ((le_max_right one two).trans large)
  simp only at first second
  simp only [ByteMemory.reservedMemory, first, Option.bind_eq_bind, Option.bind_some,
    if_pos positive, signExtend_offset (show offset < 2 ^ 32 by omega), if_pos small, second]
  congr 1
  funext reached
  cases memory.reservedChildren fdt fuel reached.1 with
  | none => rfl
  | some rest => rfl

theorem length_opening (node : Node) : (opening node.name node.items).length =
    (be32 fdtBeginNode ++ padded 4 (node.name.bytes ++ [0])).length +
    (node.items.flatMap Item.encode).length := by
  rw [opening, ← List.append_assoc, List.length_append]

/-- Where the subnodes of the node start. -/
theorem subnodes_place (memory : ByteMemory) (fdt : Word) (offset : ℕ) (node : Node) :
    memory.fdtStructBase fdt + BitVec.ofNat 64 offset +
      BitVec.ofNat 64 (be32 fdtBeginNode ++ padded 4 (node.name.bytes ++ [0])).length +
      BitVec.ofNat 64 (node.items.flatMap Item.encode).length =
        memory.fdtStructBase fdt +
        BitVec.ofNat 64 (offset + (opening node.name node.items).length) := by
  rw [length_opening, BitVec.ofNat_add, BitVec.ofNat_add, BitVec.add_assoc, BitVec.add_assoc]

theorem Located.exact {more : List UInt8} (at_ : Located memory fdt offset node more)
    (small : offset < 2 ^ 31) (nonempty : children node.subnodes ≠ [])
    (near : ∀ child ∈ children node.subnodes, offset + (opening node.name node.items).length +
      child.1 < 2 ^ 31)
    (pairs : ∀ property ∈ listed node.subnodes, ∃ base size, StartsWith property base size) :
    Exact memory fdt offset node := by
  obtain ⟨-, -, contents⟩ := at_.at_.parts
  have alignedName := @aligned_name _ node.name at_.at_.aligned
  have alignedSubnodes := aligned_add alignedName (length_items_mod node.items)
  obtain ⟨next, scan, nops, ends, regions, within⟩ :=
    children_scan alignedSubnodes contents.right at_.strings
    (subnodes_place memory fdt offset node) near pairs
  obtain ⟨tokens, first, withinItems⟩ :=
    toNode_items alignedName contents (toNode_subnodes nonempty contents.right nops)
  refine ⟨⟨scan.regions, (memory.fdtStructBase fdt + BitVec.ofNat 64 offset) ::
    (tokens ++ next.2 ++ scan.tokens)⟩, ?_, regions, fun t member => ?_⟩
  · obtain ⟨one, unfolds⟩ := at_.unfolds small
    obtain ⟨two, first⟩ := first
    obtain ⟨three, ends⟩ := ends
    refine ⟨one + two + three, fun fuel large => ?_⟩
    have reached := first fuel (by omega)
    have through := ends fuel (by omega)
    simp only at reached through
    simp only [unfolds fuel (by omega), reached, Option.bind_some, through, Option.map_some]
    rfl
  · rw [length_node]
    rw [List.append_assoc] at member
    rcases List.mem_cons.mp member with rfl | later
    · exact .start (by omega)
    · apply Within.shift
      rcases List.mem_append.mp later with inItems | behind
      · exact (withinItems t inItems).mono (by omega)
      · exact (within t behind).shift

theorem Located.not_exact_of_empty {more : List UInt8} (at_ : Located memory fdt offset node more)
    (small : offset < 2 ^ 31) (none : children node.subnodes = []) :
    ¬ Exact memory fdt offset node := by
  rintro ⟨scan, ⟨first, ends⟩, -, within⟩
  obtain ⟨enough, unfolds⟩ := at_.unfolds small
  obtain ⟨-, -, contents⟩ := at_.at_.parts
  have found := ends (max first enough) (le_max_left _ _)
  simp only [unfolds (max first enough) (le_max_right _ _)] at found
  obtain ⟨reached, there, found⟩ := Option.bind_eq_some_iff.mp found
  obtain ⟨rest, -, rfl⟩ := Option.map_eq_some_iff.mp found
  have leaves := toNode_leaves_items none (aligned_name at_.at_.aligned) contents there
  have length := length_node node
  rw [BitVec.add_assoc, ← BitVec.ofNat_add, ← length] at leaves
  obtain ⟨k, below, same⟩ := within _ (List.mem_cons_of_mem _ (List.mem_append_left _ leaves))
  have fits := at_.fits
  have equal := congrArg BitVec.toNat ((BitVec.add_right_inj _).mp same)
  rw [BitVec.toNat_ofNat, BitVec.toNat_ofNat] at equal
  omega

theorem Located.not_exact_of_far {more : List UInt8} (at_ : Located memory fdt offset node more)
    (small : offset < 2 ^ 31) (far : ∃ child ∈ children node.subnodes, 2 ^ 31 ≤
      offset + (opening node.name node.items).length + child.1)
    (pairs : ∀ property ∈ listed node.subnodes, ∃ base size, StartsWith property base size) :
    ¬ Exact memory fdt offset node := by
  rintro ⟨scan, ends, -, within⟩
  obtain ⟨-, -, contents⟩ := at_.at_.parts
  have alignedName := @aligned_name _ node.name at_.at_.aligned
  have alignedSubnodes := aligned_add alignedName (length_items_mod node.items)
  have nonempty : children node.subnodes ≠ [] := by
    obtain ⟨child, member, -⟩ := far
    exact List.ne_nil_of_mem member
  have fits := at_.fits
  have length := length_node node
  have opened := length_opening node
  obtain ⟨next, nops, leaves⟩ := children_leave alignedSubnodes contents.right at_.strings
    (subnodes_place memory fdt offset node) (by omega) far pairs
  obtain ⟨tokens, first, -⟩ :=
    toNode_items alignedName contents (toNode_subnodes nonempty contents.right nops)
  have through : EndsWith
      (fun fuel => (memory.skipToNode fuel (memory.fdtStructBase fdt + BitVec.ofNat 64 offset +
      BitVec.ofNat 64 (be32 fdtBeginNode ++ padded 4 (node.name.bytes ++ [0])).length)).bind
      fun first =>
      (memory.reservedChildren fdt fuel first.1).map
        (before [] ((memory.fdtStructBase fdt + BitVec.ofNat 64 offset) :: first.2))) scan := by
    obtain ⟨one, unfolds⟩ := at_.unfolds small
    obtain ⟨two, ends⟩ := ends
    refine ⟨max one two, fun fuel large => ?_⟩
    have found := ends fuel ((le_max_right one two).trans large)
    simp only [unfolds fuel ((le_max_left one two).trans large)] at found
    exact found
  obtain ⟨inside, innerEnds, rfl⟩ := (first.of_bind through).of_map (before_injective _ _)
  obtain ⟨k, bound, outside⟩ := leaves inside innerEnds
  obtain ⟨j, below, same⟩ := within _ (List.mem_append_right _ outside)
  rw [BitVec.add_assoc, ← BitVec.ofNat_add] at same
  have equal := congrArg BitVec.toNat ((BitVec.add_right_inj _).mp same)
  rw [BitVec.toNat_sub, BitVec.toNat_ofNat, BitVec.toNat_ofNat, BitVec.toNat_ofNat] at equal
  omega

theorem Located.exact_iff_of_large {more : List UInt8} (at_ : Located memory fdt offset node more)
    (large : 2 ^ 31 ≤ offset) :
    Exact memory fdt offset node ↔ listed node.subnodes = [] := by
  have fits := at_.fits
  have negative : ¬ (BitVec.ofNat 32 offset).toInt ≥ 0 := by
    have msb : (BitVec.ofNat 32 offset).msb = true := by
      rw [BitVec.msb_eq_true_iff_two_mul_ge, BitVec.toNat_ofNat]
      omega
    exact not_le.mpr (BitVec.toInt_neg_of_msb_true msb)
  have nothing : EndsWith (fun fuel => memory.reservedMemory fuel fdt) ⟨[], []⟩ := by
    obtain ⟨enough, path⟩ := at_.path
    refine ⟨enough, fun fuel large => ?_⟩
    have first := path fuel large
    simp only at first
    simp only [ByteMemory.reservedMemory, first, Option.bind_eq_bind,
      Option.bind_some, if_neg negative]
  constructor
  · rintro ⟨scan, ends, regions, -⟩
    obtain rfl := ends.unique nothing
    exact List.forall₂_nil_right_iff.mp regions
  · intro none
    exact ⟨_, nothing, none ▸ .nil, nofun⟩

/-- Whatever the properties, the padding and the nested nodes are: the enumeration is exact when the
node has a direct child and offsets fit, and without a direct child it reads on behind the node. -/
theorem reserved_memory_exact_iff (device : FdtAt memory fdt root)
    (found : root.locate [reservedSegment] = some (offset, node))
    (pairs : ∀ property ∈ listed node.subnodes, ∃ base size, StartsWith property base size) :
    Exact memory fdt offset node ↔ Scannable offset node := by
  obtain ⟨more, at_⟩ := located device found
  rw [Scannable]
  split
  · rename_i small
    constructor
    · intro exact
      refine ⟨fun none => at_.not_exact_of_empty small none exact, fun child member => ?_⟩
      by_contra far
      exact at_.not_exact_of_far small ⟨child, member, not_lt.mp far⟩ pairs exact
    · rintro ⟨nonempty, near⟩
      exact at_.exact small nonempty near pairs
  · rename_i large
    exact at_.exact_iff_of_large (not_lt.mp large)

/-! ## Two trees -/

/-- A page at two gigabytes. -/
def pageReg : Property := ⟨reg, 0#32, be64 0x80000000#64 ++ be64 0x1000#64, by decide⟩

private theorem nulFree_nil : (0 : UInt8) ∉ ([] : List UInt8) := by decide
private theorem nulFree_a : (0 : UInt8) ∉ ([97] : List UInt8) := by decide

/-- A tree with these children of the reserved memory, and another node behind it. -/
def reservedTree (inside : Subnodes) : Node :=
  ⟨⟨[], nulFree_nil⟩, [], .cons ⟨reservedMemoryPath.tail, by decide⟩ [] inside
    (.cons ⟨[109], by decide⟩ [.property pageReg] .nil .nil)⟩

theorem reservedTree_at {inside : Subnodes}
    (named : ∀ property ∈ inside.properties, property = pageReg)
    (short : inside.encode.length < 2 ^ 31) :
    FdtAt (memoryOf 4096#64 (blob (reservedTree inside) (regName ++ [0])))
      4096#64 (reservedTree inside) := by
  have around : (opening ⟨[], by decide⟩ []).length +
      ((opening ⟨reservedMemoryPath.tail, by decide⟩ []).length +
      (inside.encode.length +
        (4 + ((opening ⟨[109], by decide⟩ [.property pageReg]).length + (0 + (4 + 0)))) + 4)) + 4 =
      ((reservedTree inside).encode ++ be32 fdtEnd).length := by
    simp only [reservedTree, Node.encode, Subnodes.encode, List.length_append,
      length_be32, List.length_nil]
    omega
  have first : (opening ⟨[], by decide⟩ []).length = 8 := by decide
  have second : (opening ⟨reservedMemoryPath.tail, by decide⟩ []).length = 20 := by decide
  have third : (opening ⟨[109], by decide⟩ [.property pageReg]).length = 36 := by decide
  have strings : (regName ++ [0]).length = 4 := rfl
  rw [first, second, third] at around
  refine fdtAt_blob (by decide) (by omega) (fun property member => ?_) (stored_memoryOf _ _ ?_)
  · have own : property = pageReg := by
      simp only [reservedTree, Node.properties, Subnodes.properties, DeviceTree.properties,
        List.filterMap_nil, List.nil_append, List.filterMap_cons, List.append_nil, List.mem_append,
        List.mem_singleton] at member
      exact member.elim (named property) id
    exact ⟨[], [], own ▸ rfl, own ▸ rfl⟩
  · rw [length_blob]
    omega

/-- A child with padding before its property, a node inside and padding behind. -/
def oneChild : Subnodes :=
  .cons ⟨[97], nulFree_a⟩ [.nop, .property pageReg]
    (.cons ⟨[98], by decide⟩ [] .nil .nil) (.nop .nil)

theorem reserved_memory_exact_one : ∃ memory offset node,
    FdtAt memory 4096#64 (reservedTree oneChild) ∧
    (reservedTree oneChild).locate [reservedSegment] = some (offset, node) ∧
    Exact memory 4096#64 offset node := by
  have device : FdtAt _ 4096#64 (reservedTree oneChild) :=
    reservedTree_at (fun property member => by
    simpa only [oneChild, Subnodes.properties, DeviceTree.properties, List.filterMap_cons,
      List.filterMap_nil, List.append_nil, List.mem_singleton] using member) (by decide)
  have found : (reservedTree oneChild).locate [reservedSegment] =
      some (8, ⟨⟨reservedMemoryPath.tail, by decide⟩, [], oneChild⟩) := rfl
  refine ⟨_, _, _, device, found,
    (reserved_memory_exact_iff device found fun property member => ?_).mpr ?_⟩
  · obtain rfl : property = pageReg := List.mem_singleton.mp member
    exact ⟨_, _, [], rfl, rfl⟩
  · rw [Scannable, if_pos (by decide)]
    refine ⟨List.cons_ne_nil _ _, fun child member => ?_⟩
    obtain rfl := List.mem_singleton.mp member
    decide

/-- A node `/reserved-memory` without children: the scan goes on in the node behind it. -/
theorem reserved_memory_empty : ∃ memory offset node,
    FdtAt memory 4096#64 (reservedTree .nil) ∧
    (reservedTree .nil).locate [reservedSegment] = some (offset, node) ∧
    children node.subnodes = [] ∧
    ¬ Exact memory 4096#64 offset node := by
  have device : FdtAt _ 4096#64 (reservedTree .nil) := reservedTree_at nofun (by decide)
  have found : (reservedTree .nil).locate [reservedSegment] =
      some (8, ⟨⟨reservedMemoryPath.tail, by decide⟩, [], .nil⟩) := rfl
  obtain ⟨more, at_⟩ := located device found
  exact ⟨_, _, _, device, found, rfl, at_.not_exact_of_empty (by decide) rfl⟩

end Scan

end OscKernel.Soundness.ReservedMemory
