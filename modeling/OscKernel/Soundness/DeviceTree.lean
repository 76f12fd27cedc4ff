import OscKernel.Lib.Fuel
import OscKernel.Model.Fdt
import OscKernel.Soundness.CpioArchive

/-! # Looking up the device tree

A device tree is flattened into tokens: a node is its name, its properties and its subnodes between
two tokens, with padding tokens in between. The scan of `fdt_path_offset` skips what does not lie on
the path, whatever bytes the property values consist of, and so takes the same way down as the
recursive definition; `fdt_getprop` scans the properties of the node it is given. Both results are
an `int`.
-/

namespace OscKernel.Soundness.DeviceTree

open OscKernel.Lib OscKernel.Model OscKernel.Soundness.CpioArchive

/-! ## Trees and their flattened form -/

/-- A string without a terminator inside. -/
structure CString where
  bytes : List UInt8
  nulFree : 0 ∉ bytes

/-- A property, with the place of its name in the strings block. -/
structure Property where
  name : CString
  nameoff : BitVec 32
  value : List UInt8
  bound : value.length < 2 ^ 32

/-- What stands before the subnodes of a node. -/
inductive Item where
  | nop
  | property (property : Property)

/-- The subnodes of a node in their order, each with what it contains. -/
inductive Subnodes where
  | nil
  | nop (rest : Subnodes)
  | cons (name : CString) (items : List Item) (subnodes rest : Subnodes)

structure Node where
  name : CString
  items : List Item
  subnodes : Subnodes

/-- A number in big-endian bytes. -/
def be32 (n : BitVec 32) : List UInt8 :=
  [⟨n.extractLsb' 24 8⟩, ⟨n.extractLsb' 16 8⟩, ⟨n.extractLsb' 8 8⟩, ⟨n.extractLsb' 0 8⟩]

def Item.encode : Item → List UInt8
  | .nop => be32 fdtNop
  | .property p =>
    be32 fdtProp ++ (be32 (BitVec.ofNat 32 p.value.length) ++ (be32 p.nameoff ++ padded 4 p.value))

/-- The start of a node up to its subnodes. -/
def opening (name : CString) (items : List Item) : List UInt8 :=
  be32 fdtBeginNode ++ (padded 4 (name.bytes ++ [0]) ++ items.flatMap Item.encode)

def Subnodes.encode : Subnodes → List UInt8
  | .nil => []
  | .nop rest => be32 fdtNop ++ rest.encode
  | .cons name items subnodes rest =>
    opening name items ++ (subnodes.encode ++ (be32 fdtEndNode ++ rest.encode))

def Node.encode (node : Node) : List UInt8 :=
  opening node.name node.items ++ (node.subnodes.encode ++ be32 fdtEndNode)

def properties (items : List Item) : List Property :=
  items.filterMap fun item => match item with
    | .nop => none
    | .property p => some p

/-- The properties of all nodes. -/
def Subnodes.properties : Subnodes → List Property
  | .nil => []
  | .nop rest => rest.properties
  | .cons _ items subnodes rest =>
    DeviceTree.properties items ++ (subnodes.properties ++ rest.properties)

def Node.properties (node : Node) : List Property :=
  DeviceTree.properties node.items ++ node.subnodes.properties

/-- The tree is flattened at an address: the header says where the two blocks are, the structure
block holds the root node, and the strings block the name of every property. -/
structure FdtAt (memory : ByteMemory) (fdt : Word) (root : Node) : Prop where
  aligned : fdt.toNat % 4 = 0
  magic : Stored memory fdt (be32 fdtMagic)
  structAligned : (memory.fdtStructBase fdt).toNat % 4 = 0
  tokens : Stored memory (memory.fdtStructBase fdt) (root.encode ++ be32 fdtEnd)
  strings : ∀ property ∈ root.properties,
    Stored memory (memory.fdtStringsBase fdt + property.nameoff.setWidth 64)
    (property.name.bytes ++ [0])
  fits : (memory.fdt32ToCpu (fdt + 8#64)).toNat + (root.encode ++ be32 fdtEnd).length < 2 ^ 32

/-! ## Paths -/

/-- A part of a path between two slashes. -/
structure Segment where
  bytes : List UInt8
  nonempty : bytes ≠ []
  nulFree : 0 ∉ bytes
  noSlash : pathSlash ∉ bytes

/-- The absolute path of the segments. -/
def pathString : List Segment → List UInt8
  | [] => [pathSlash]
  | segments => segments.flatMap fun segment => pathSlash :: segment.bytes

/-- The name is the segment, or the segment followed by `@`. -/
def Matches (name : CString) (segment : Segment) : Prop :=
  name.bytes = segment.bytes ∨ segment.bytes ++ [atSign] <+: name.bytes

instance (name : CString) (segment : Segment) : Decidable (Matches name segment) :=
  inferInstanceAs (Decidable (_ ∨ _))

/-- The first subnode that matches, with the distance to it from the first token of the subnodes. -/
def Subnodes.firstMatch (segment : Segment) : Subnodes → Option (ℕ × Node)
  | .nil => none
  | .nop rest => (rest.firstMatch segment).map fun found =>
    ((be32 fdtNop).length + found.1, found.2)
  | .cons name items subnodes rest =>
    if Matches name segment then some (0, ⟨name, items, subnodes⟩)
    else (rest.firstMatch segment).map fun found =>
      ((Node.mk name items subnodes).encode.length + found.1, found.2)

/-- The node the path leads to, taking the first subnode that matches at each level, with the
distance to it. -/
def Node.locate (node : Node) : List Segment → Option (ℕ × Node)
  | [] => some (0, node)
  | segment :: rest =>
    match node.subnodes.firstMatch segment with
    | none => none
    | some (distance, child) =>
      (child.locate rest).map fun found =>
        ((opening node.name node.items).length + (distance + found.1), found.2)

/-- The first property of that name. -/
def Node.firstProperty (node : Node) (name : CString) : Option Property :=
  (DeviceTree.properties node.items).find? fun property => property.name.bytes = name.bytes

/-! ## Tokens in memory -/

section Tokens

variable {memory : ByteMemory} {p : Word} {name : CString} {bytes more : List UInt8}

@[simp] theorem length_be32 (n : BitVec 32) : (be32 n).length = 4 := rfl

/-- A number in big-endian bytes is read back. -/
theorem fdt32ToCpu_be32 {n : BitVec 32} (stored : Stored memory p (be32 n)) :
    memory.fdt32ToCpu p = n := by
  obtain ⟨first, second, third, fourth, -⟩ := stored
  rw [BitVec.add_assoc] at third
  rw [BitVec.add_assoc, BitVec.add_assoc] at fourth
  have third' : memory (p + 2#64) = ⟨n.extractLsb' 8 8⟩ := third
  have fourth' : memory (p + 3#64) = ⟨n.extractLsb' 0 8⟩ := fourth
  rw [ByteMemory.fdt32ToCpu, first, second, third', fourth']
  apply BitVec.eq_of_getLsbD_eq
  intro i bound
  simp only [BitVec.getLsbD_or, BitVec.getLsbD_shiftLeft, BitVec.getLsbD_setWidth,
    BitVec.getLsbD_extractLsb']
  have cases : i < 8 ∨ 8 ≤ i ∧ i < 16 ∨ 16 ≤ i ∧ i < 24 ∨ 24 ≤ i := by omega
  rcases cases with low | ⟨low, high⟩ | ⟨low, high⟩ | low
  · simp [bound, low, show i < 16 by omega, show i < 24 by omega]
  · simp [bound, high, show ¬ i < 8 by omega, show i < 24 by omega, show i - 8 < 8 by omega,
      show i - 8 < 32 by omega, show 8 + (i - 8) = i by omega]
  · simp [bound, high, show ¬ i < 8 by omega, show ¬ i < 16 by omega, show ¬ i - 8 < 8 by omega,
      show i - 16 < 8 by omega, show i - 16 < 32 by omega, show 16 + (i - 16) = i by omega]
  · simp [bound, show ¬ i < 8 by omega, show ¬ i < 16 by omega, show ¬ i < 24 by omega,
      show ¬ i - 8 < 8 by omega, show ¬ i - 16 < 8 by omega, show i - 24 < 8 by omega,
      show i - 24 < 32 by omega, show 24 + (i - 24) = i by omega]

private theorem strlen_ends {string : List UInt8}
    (stored : Stored memory p (string ++ [0])) (nulFree : 0 ∉ string) :
    EndsWith (fun fuel => memory.strlen fuel p) string.length := by
  induction string generalizing p with
  | nil =>
    refine (EndsWith.const 0).round fun fuel => ?_
    rw [ByteMemory.strlen, if_pos stored.1]
  | cons c rest ih =>
    have notNul : memory p ≠ 0 := by
      rw [stored.1]
      exact fun same => nulFree (same ▸ List.mem_cons_self)
    refine ((ih stored.2 fun inside => nulFree (List.mem_cons_of_mem c inside)).map (· + 1)).round
      fun fuel => ?_
    rw [ByteMemory.strlen, if_neg notNul]

/-- An aligned address stays aligned behind what is padded. -/
theorem aligned_add (aligned : p.toNat % 4 = 0) {n : ℕ} (whole : n % 4 = 0) :
    (p + BitVec.ofNat 64 n).toNat % 4 = 0 := by
  rw [BitVec.toNat_add, BitVec.toNat_ofNat]
  omega

theorem skipName_ends (aligned : p.toNat % 4 = 0)
    (stored : Stored memory p (padded 4 (name.bytes ++ [0]))) :
    EndsWith (fun fuel => memory.skipName fuel p)
      (p + BitVec.ofNat 64 (padded 4 (name.bytes ++ [0])).length) := by
  have length := (strlen_ends stored.left name.nulFree).map fun length =>
    align (p + BitVec.ofNat 64 length + 1#64) 4#32
  have behind : p + BitVec.ofNat 64 name.bytes.length + 1#64 =
      p + BitVec.ofNat 64 (name.bytes.length + 1) := by
    rw [BitVec.ofNat_add, BitVec.add_assoc]
  rw [behind, align_add aligned] at length
  rw [length_padded (by decide), List.length_append, List.length_singleton]
  exact length

private theorem skipValue_eq (aligned : p.toNat % 4 = 0) {property : Property}
    (stored : Stored memory p (be32 (BitVec.ofNat 32 property.value.length) ++
      (be32 property.nameoff ++ padded 4 property.value))) :
    memory.skipValue p = p + BitVec.ofNat 64 (8 + (padded 4 property.value).length) := by
  have bound := property.bound
  have size : (BitVec.ofNat 32 property.value.length).setWidth 64 =
      BitVec.ofNat 64 property.value.length :=
    setWidth_filesize bound
  have start : (p + 8#64).toNat % 4 = 0 := aligned_add aligned (show 8 % 4 = 0 from rfl)
  rw [ByteMemory.skipValue, fdt32ToCpu_be32 stored.left, size, align_add start,
    length_padded (by decide), BitVec.ofNat_add, ← BitVec.add_assoc]

end Tokens

/-! ## Lengths -/

section Lengths

theorem length_padded_mod (bytes : List UInt8) : (padded 4 bytes).length % 4 = 0 := by
  rw [length_padded (by decide)]
  exact roundUp_mod 4 _

theorem length_item_mod (item : Item) : item.encode.length % 4 = 0 := by
  cases item with
  | nop => rfl
  | property p =>
    have value := length_padded_mod p.value
    simp only [Item.encode, List.length_append, length_be32]
    omega

theorem length_items_mod (items : List Item) : (items.flatMap Item.encode).length % 4 = 0 := by
  induction items with
  | nil => rfl
  | cons item rest ih =>
    have first := length_item_mod item
    rw [List.flatMap_cons, List.length_append]
    omega

theorem length_opening_mod (name : CString) (items : List Item) :
    (opening name items).length % 4 = 0 := by
  have string := length_padded_mod (name.bytes ++ [0])
  have body := length_items_mod items
  simp only [opening, List.length_append, length_be32] at string body ⊢
  omega

theorem length_subnodes_mod (subnodes : Subnodes) : subnodes.encode.length % 4 = 0 := by
  induction subnodes with
  | nil => rfl
  | nop rest ih =>
    simp only [Subnodes.encode, List.length_append, length_be32]
    omega
  | cons name items subnodes rest ihInside ihRest =>
    have start := length_opening_mod name items
    simp only [Subnodes.encode, List.length_append, length_be32]
    omega

theorem length_node_mod (node : Node) : node.encode.length % 4 = 0 := by
  have start := length_opening_mod node.name node.items
  have inside := length_subnodes_mod node.subnodes
  simp only [Node.encode, List.length_append, length_be32]
  omega

end Lengths

/-! ## Skipping a node -/

section Skipping

variable {memory : ByteMemory} {p : Word} {level : ℕ} {result : Option Word} {more : List UInt8}

/-- The distance over two parts that follow each other. -/
theorem add_lengths (p : Word) (first second : List UInt8) :
    p + BitVec.ofNat 64 first.length + BitVec.ofNat 64 second.length =
      p + BitVec.ofNat 64 (first ++ second).length := by
  rw [List.length_append, BitVec.ofNat_add, BitVec.add_assoc]

theorem skip_nop (here : memory.fdt32ToCpu p = fdtNop)
    (later : EndsWith (fun fuel => memory.skipNodeFrom fuel (level + 1) (p + 4#64)) result) :
    EndsWith (fun fuel => memory.skipNodeFrom fuel (level + 1) p) result := by
  refine later.round fun fuel => ?_
  simp [ByteMemory.skipNodeFrom, here, fdtNop, fdtBeginNode, fdtEndNode, fdtProp, fdtEnd]

private theorem skip_prop (here : memory.fdt32ToCpu p = fdtProp)
    (later : EndsWith
      (fun fuel => memory.skipNodeFrom fuel (level + 1) (memory.skipValue (p + 4#64))) result) :
    EndsWith (fun fuel => memory.skipNodeFrom fuel (level + 1) p) result := by
  refine later.round fun fuel => ?_
  simp [ByteMemory.skipNodeFrom, here, fdtBeginNode, fdtEndNode, fdtProp]

theorem skip_end (here : memory.fdt32ToCpu p = fdtEndNode)
    (later : EndsWith (fun fuel => memory.skipNodeFrom fuel level (p + 4#64)) result) :
    EndsWith (fun fuel => memory.skipNodeFrom fuel (level + 1) p) result := by
  refine later.round fun fuel => ?_
  simp [ByteMemory.skipNodeFrom, here, fdtBeginNode, fdtEndNode]

private theorem skip_begin {next : Word} (here : memory.fdt32ToCpu p = fdtBeginNode)
    (named : EndsWith (fun fuel => memory.skipName fuel (p + 4#64)) next)
    (later : EndsWith (fun fuel => memory.skipNodeFrom fuel (level + 2) next) result) :
    EndsWith (fun fuel => memory.skipNodeFrom fuel (level + 1) p) result := by
  refine (named.bind later).round fun fuel => ?_
  simp [ByteMemory.skipNodeFrom, here]

/-- The distance over a property from its length on. -/
theorem skipValue_property {property : Property} (aligned : p.toNat % 4 = 0)
    (stored : Stored memory p ((Item.property property).encode ++ more)) :
    memory.skipValue (p + 4#64) = p + BitVec.ofNat 64 (Item.property property).encode.length := by
  have start : (p + 4#64).toNat % 4 = 0 := aligned_add aligned (show 4 % 4 = 0 from rfl)
  rw [skipValue_eq start stored.left.right, BitVec.add_assoc, ← BitVec.ofNat_add]
  congr 2
  simp only [Item.encode, List.length_append, length_be32]
  omega

theorem skip_items {items : List Item} (aligned : p.toNat % 4 = 0)
    (stored : Stored memory p (items.flatMap Item.encode ++ more))
    (later : EndsWith (fun fuel => memory.skipNodeFrom fuel (level + 1)
      (p + BitVec.ofNat 64 (items.flatMap Item.encode).length)) result) :
    EndsWith (fun fuel => memory.skipNodeFrom fuel (level + 1) p) result := by
  induction items generalizing p with
  | nil => rwa [List.flatMap_nil, List.length_nil, BitVec.add_zero] at later
  | cons item rest ih =>
    rw [List.flatMap_cons, List.append_assoc] at stored
    rw [List.flatMap_cons, ← add_lengths] at later
    have next := ih (aligned_add aligned (length_item_mod item)) stored.right later
    cases item with
    | nop => exact skip_nop (fdt32ToCpu_be32 stored.left) next
    | property property =>
      apply skip_prop (fdt32ToCpu_be32 stored.left.left)
      rwa [skipValue_property aligned stored]

/-- The start of a node leads one level down. -/
private theorem skip_opening {name : CString} {items : List Item} (aligned : p.toNat % 4 = 0)
    (stored : Stored memory p (opening name items ++ more))
    (later : EndsWith (fun fuel => memory.skipNodeFrom fuel (level + 2)
      (p + BitVec.ofNat 64 (opening name items).length)) result) :
    EndsWith (fun fuel => memory.skipNodeFrom fuel (level + 1) p) result := by
  have inside := stored.left.right
  have start : (p + 4#64).toNat % 4 = 0 := aligned_add aligned (show 4 % 4 = 0 from rfl)
  have body := aligned_add start (length_padded_mod (name.bytes ++ [0]))
  rw [opening, ← add_lengths, ← add_lengths] at later
  apply skip_begin (fdt32ToCpu_be32 stored.left.left) (skipName_ends start inside.left)
  have contents : Stored memory (p + 4#64 + BitVec.ofNat 64 (padded 4 (name.bytes ++ [0])).length)
      (items.flatMap Item.encode ++ []) := by
    rw [List.append_nil]
    exact inside.right
  exact skip_items body contents later

private theorem skip_subnodes {subnodes : Subnodes} (aligned : p.toNat % 4 = 0)
    (stored : Stored memory p (subnodes.encode ++ more)) (later : EndsWith (fun fuel =>
      memory.skipNodeFrom fuel (level + 1) (p + BitVec.ofNat 64 subnodes.encode.length)) result) :
    EndsWith (fun fuel => memory.skipNodeFrom fuel (level + 1) p) result := by
  induction subnodes generalizing p level more with
  | nil => rwa [Subnodes.encode, List.length_nil, BitVec.add_zero] at later
  | nop rest ih =>
    rw [Subnodes.encode, List.append_assoc] at stored
    rw [Subnodes.encode, ← add_lengths] at later
    apply skip_nop (fdt32ToCpu_be32 stored.left)
    exact ih (aligned_add aligned (show 4 % 4 = 0 from rfl)) stored.right later
  | cons name items subnodes rest ihInside ihRest =>
    rw [Subnodes.encode, List.append_assoc, List.append_assoc, List.append_assoc] at stored
    rw [Subnodes.encode, ← add_lengths, ← add_lengths, ← add_lengths] at later
    have body := aligned_add aligned (length_opening_mod name items)
    have ending := aligned_add body (length_subnodes_mod subnodes)
    have behind := aligned_add ending (show 4 % 4 = 0 from rfl)
    apply skip_opening aligned stored
    apply ihInside body stored.right
    apply skip_end (fdt32ToCpu_be32 stored.right.right.left)
    exact ihRest behind stored.right.right.right later

/-- From behind its name, `skip_node` leads behind the node. -/
theorem skipNode_ends {items : List Item} {subnodes : Subnodes} (aligned : p.toNat % 4 = 0)
    (stored : Stored memory p
      (items.flatMap Item.encode ++ (subnodes.encode ++ (be32 fdtEndNode ++ more)))) :
    EndsWith (fun fuel => memory.skipNode fuel p)
      (some (p + BitVec.ofNat 64
        (items.flatMap Item.encode ++ (subnodes.encode ++ be32 fdtEndNode)).length)) := by
  have body := aligned_add aligned (length_items_mod items)
  change EndsWith (fun fuel => memory.skipNodeFrom fuel (0 + 1) p) _
  apply skip_items aligned stored
  apply skip_subnodes body stored.right
  apply skip_end (fdt32ToCpu_be32 stored.right.right.left)
  rw [← add_lengths, ← add_lengths]
  refine (EndsWith.const _).round fun fuel => ?_
  rw [ByteMemory.skipNodeFrom]
  rfl

end Skipping

/-! ## Comparing names with a path -/

section Comparing

variable {memory : ByteMemory} {p : Word} {name : CString} {segment : Segment} {tail : List UInt8}

/-- What follows a segment in the path. -/
def pathTail (segments : List Segment) : List UInt8 :=
  segments.flatMap fun segment => pathSlash :: segment.bytes

private theorem strchr_segment (segment : Segment) (tail : List UInt8) :
    strchr pathSlash (segment.bytes ++ tail) = strchr pathSlash tail := by
  have skips : ∀ bytes : List UInt8, pathSlash ∉ bytes →
      strchr pathSlash (bytes ++ tail) = strchr pathSlash tail := by
    intro bytes absent
    induction bytes with
    | nil => rfl
    | cons c rest ih =>
      have other : c ≠ pathSlash := fun same => absent (same ▸ List.mem_cons_self)
      rw [List.cons_append, strchr, if_neg other]
      exact ih fun inside => absent (List.mem_cons_of_mem c inside)
  exact skips segment.bytes segment.noSlash

/-- A string compares equal with a segment, as far as that goes, when it starts with it. -/
private theorem strncmp_eq_zero {string bytes : List UInt8}
    (stored : Stored memory p (string ++ [0])) (nulFree : 0 ∉ bytes) :
    memory.strncmp p (bytes ++ tail) bytes.length = 0 ↔ bytes <+: string := by
  induction bytes generalizing p string with
  | nil => simp [ByteMemory.strncmp]
  | cons c rest ih =>
    have notNul : c ≠ 0 := fun same => nulFree (same ▸ List.mem_cons_self)
    rw [List.cons_append, List.length_cons, ByteMemory.strncmp]
    cases string with
    | nil =>
      have here : memory p = 0 := stored.1
      have positive : c.toNat ≠ 0 := fun zero => notNul (UInt8.toNat_inj.mp zero)
      simp [here, positive]
    | cons d others =>
      have here : memory p = d := stored.1
      rw [here, List.cons_prefix_cons]
      rcases eq_or_ne d c with rfl | different
      · rw [if_pos ⟨notNul, rfl⟩, ih stored.2 fun inside => nulFree (List.mem_cons_of_mem d inside)]
        simp
      · have values : d.toNat ≠ c.toNat := fun same => different (UInt8.toNat_inj.mp same)
        rw [if_neg (fun both => different both.2)]
        constructor
        · intro zero
          omega
        · exact fun both => absurd both.1.symm different

/-- The comparison of `fdt_path_offset` finds out whether the name matches. -/
private theorem matches_iff (stored : Stored memory p (name.bytes ++ [0])) :
    (memory.strncmp p (segment.bytes ++ tail) segment.bytes.length = 0 ∧
      (memory (p + BitVec.ofNat 64 segment.bytes.length) = 0 ∨
        memory (p + BitVec.ofNat 64 segment.bytes.length) = atSign)) ↔
      Matches name segment := by
  rw [strncmp_eq_zero stored segment.nulFree, Matches]
  constructor
  · rintro ⟨⟨following, shape⟩, ends⟩
    rw [← shape, List.append_assoc] at stored
    have next := stored.right
    cases following with
    | nil => exact .inl (by rw [← shape, List.append_nil])
    | cons c rest =>
      rw [next.1] at ends
      have notNul : c ≠ 0 := by
        rintro rfl
        apply name.nulFree
        rw [← shape]
        exact List.mem_append_right _ List.mem_cons_self
      obtain rfl := ends.resolve_left notNul
      refine .inr ⟨rest, ?_⟩
      rw [List.append_assoc]
      exact shape
  · rintro (same | ⟨rest, shape⟩)
    · rw [same] at stored ⊢
      exact ⟨List.prefix_refl _, .inl stored.right.1⟩
    · rw [List.append_assoc] at shape
      refine ⟨⟨_, shape⟩, .inr ?_⟩
      rw [← shape, List.append_assoc] at stored
      exact stored.right.1

end Comparing

/-! ## Going down a path -/

section Paths

variable {memory : ByteMemory} {base p : Word} {segment : Segment} {rest : List Segment}
  {curSeg more : List UInt8}
  {result : BitVec 32} {offset : ℕ}

/-- The node a path leads to from the subnodes. -/
def Subnodes.locate (subnodes : Subnodes) (segment : Segment) (rest : List Segment) :
    Option (ℕ × Node) :=
  (subnodes.firstMatch segment).bind fun found => (found.2.locate rest).map fun inner =>
    (found.1 + inner.1, inner.2)

theorem Node.locate_cons (node : Node) (segment : Segment) (rest : List Segment) :
    node.locate (segment :: rest) = (node.subnodes.locate segment rest).map fun found =>
      ((opening node.name node.items).length + found.1, found.2) := by
  rw [Node.locate, Subnodes.locate]
  cases node.subnodes.firstMatch segment with
  | none => rfl
  | some found =>
    simp only [Option.bind_some, Option.map_map]
    rfl

/-- What `fdt_path_offset` returns for the node that was found from the given place on. -/
def answer (found : Option (ℕ × Node)) (start : ℕ) : BitVec 32 :=
  match found with
  | none => -1#32
  | some (distance, _) => BitVec.ofNat 32 (start + distance)

theorem answer_map (found : Option (ℕ × Node)) (n start : ℕ) :
    answer (found.map fun inner => (n + inner.1, inner.2)) start = answer found (start + n) := by
  cases found with
  | none => rfl
  | some inner => simp only [answer, Option.map_some, Nat.add_assoc]

private theorem locate_nop (subnodes : Subnodes) : (Subnodes.nop subnodes).locate segment rest =
    (subnodes.locate segment rest).map fun inner => ((be32 fdtNop).length + inner.1, inner.2) := by
  rw [Subnodes.locate, Subnodes.locate, Subnodes.firstMatch]
  cases subnodes.firstMatch segment with
  | none => rfl
  | some found =>
    simp only [Option.map_some, Option.bind_some, Option.map_map]
    congr 1
    funext inner
    simp only [Function.comp_apply, Nat.add_assoc]

private theorem locate_match {name : CString} {items : List Item} {subnodes siblings : Subnodes}
    (matched : Matches name segment) : (Subnodes.cons name items subnodes siblings).locate segment
    rest = (Node.mk name items subnodes).locate rest := by
  rw [Subnodes.locate, Subnodes.firstMatch, if_pos matched]
  cases h : (Node.mk name items subnodes).locate rest with
  | none => simp [h]
  | some inner => simp [h]

private theorem locate_skip {name : CString} {items : List Item} {subnodes siblings : Subnodes}
    (other : ¬ Matches name segment) : (Subnodes.cons name items subnodes siblings).locate segment
    rest = (siblings.locate segment rest).map fun inner =>
      ((Node.mk name items subnodes).encode.length + inner.1, inner.2) := by
  rw [Subnodes.locate, Subnodes.locate, Subnodes.firstMatch, if_neg other]
  cases siblings.firstMatch segment with
  | none => rfl
  | some found =>
    simp only [Option.map_some, Option.bind_some, Option.map_map]
    congr 1
    funext inner
    simp only [Function.comp_apply, Nat.add_assoc]

theorem path_nop (here : memory.fdt32ToCpu p = fdtNop)
    (later : EndsWith (fun fuel => memory.fdtPathLoop base fuel curSeg (p + 4#64)) result) :
    EndsWith (fun fuel => memory.fdtPathLoop base fuel curSeg p) result := by
  refine later.round fun fuel => ?_
  simp [ByteMemory.fdtPathLoop, here, fdtNop, fdtBeginNode, fdtProp]

private theorem path_prop (here : memory.fdt32ToCpu p = fdtProp)
    (later : EndsWith
      (fun fuel => memory.fdtPathLoop base fuel curSeg (memory.skipValue (p + 4#64))) result) :
    EndsWith (fun fuel => memory.fdtPathLoop base fuel curSeg p) result := by
  refine later.round fun fuel => ?_
  simp [ByteMemory.fdtPathLoop, here, fdtBeginNode, fdtProp]

private theorem path_end (here : memory.fdt32ToCpu p = fdtEndNode) :
    EndsWith (fun fuel => memory.fdtPathLoop base fuel curSeg p) (-1#32) := by
  refine (EndsWith.const _).round fun fuel => ?_
  simp [ByteMemory.fdtPathLoop, here, fdtNop, fdtBeginNode, fdtProp, fdtEndNode]

theorem path_items {items : List Item} (aligned : p.toNat % 4 = 0)
    (stored : Stored memory p (items.flatMap Item.encode ++ more))
    (later : EndsWith (fun fuel => memory.fdtPathLoop base fuel curSeg
      (p + BitVec.ofNat 64 (items.flatMap Item.encode).length)) result) :
    EndsWith (fun fuel => memory.fdtPathLoop base fuel curSeg p) result := by
  induction items generalizing p with
  | nil => rwa [List.flatMap_nil, List.length_nil, BitVec.add_zero] at later
  | cons item rest ih =>
    rw [List.flatMap_cons, List.append_assoc] at stored
    rw [List.flatMap_cons, ← add_lengths] at later
    have next := ih (aligned_add aligned (length_item_mod item)) stored.right later
    cases item with
    | nop => exact path_nop (fdt32ToCpu_be32 stored.left) next
    | property property =>
      apply path_prop (fdt32ToCpu_be32 stored.left.left)
      rwa [skipValue_property aligned stored]

/-- At a subnode the name is compared with the segment. -/
theorem path_begin {name : CString} (here : memory.fdt32ToCpu p = fdtBeginNode)
    (string : Stored memory (p + 4#64) (name.bytes ++ [0])) (fuel : ℕ) :
    memory.fdtPathLoop base (fuel + 1) (segment.bytes ++ pathTail rest) p =
      (memory.skipName fuel (p + 4#64)).bind fun next =>
        if Matches name segment then
          if rest = [] then some ((p - base).setWidth 32)
          else memory.fdtPathLoop base fuel (pathTail rest).tail next
        else (memory.skipNode fuel next).bind fun behind => match behind with
          | none => some (-1#32)
          | some behind =>
            memory.fdtPathLoop base fuel (segment.bytes ++ pathTail rest) behind := by
  have slash := strchr_segment segment (pathTail rest)
  have compare :
      (memory.strncmp (p + 4#64) (segment.bytes ++ pathTail rest) segment.bytes.length = 0 ∧
      (memory (p + 4#64 + BitVec.ofNat 64 segment.bytes.length) = 0 ∨
        memory (p + 4#64 + BitVec.ofNat 64 segment.bytes.length) = atSign)) ↔
        Matches name segment := matches_iff string
  cases rest with
  | nil =>
    have nothing : pathTail [] = [] := rfl
    rw [nothing, List.append_nil] at slash compare
    have noSlash : strchr pathSlash segment.bytes = none := slash
    simp only [ByteMemory.fdtPathLoop, here, if_true, nothing, List.append_nil, noSlash, compare]
    rfl
  | cons first others =>
    have start : pathTail (first :: others) = pathSlash :: (first.bytes ++ pathTail others) := rfl
    have found : strchr pathSlash (pathTail (first :: others)) =
        some (pathTail (first :: others)) := by
      rw [start, strchr, if_pos rfl]
    have length : (segment.bytes ++ pathTail (first :: others)).length - (pathTail
        (first :: others)).length =
        segment.bytes.length := by
      rw [List.length_append, Nat.add_sub_cancel]
    have goesOn : (pathTail (first :: others)).tail ≠ [] := by
      rw [start, List.tail_cons]
      exact List.append_ne_nil_of_left_ne_nil first.nonempty _
    rw [found] at slash
    simp only [ByteMemory.fdtPathLoop, here, if_true, slash, length, compare,
      goesOn, if_false, reduceCtorEq]
    rfl

/-- A node starts with its token and its name. -/
theorem opening_parts {name : CString} {items : List Item} (aligned : p.toNat % 4 = 0)
    (stored : Stored memory p (opening name items ++ more)) :
    memory.fdt32ToCpu p = fdtBeginNode ∧ Stored memory (p + 4#64) (name.bytes ++ [0]) ∧
      EndsWith (fun fuel => memory.skipName fuel (p + 4#64))
        (p + BitVec.ofNat 64 (be32 fdtBeginNode ++ padded 4 (name.bytes ++ [0])).length) ∧
      Stored memory (p + BitVec.ofNat 64 (be32 fdtBeginNode ++ padded 4 (name.bytes ++ [0])).length)
        (items.flatMap Item.encode ++ more) := by
  have start : (p + 4#64).toNat % 4 = 0 := aligned_add aligned (show 4 % 4 = 0 from rfl)
  rw [opening, List.append_assoc, List.append_assoc] at stored
  have inside := stored.right
  have named := skipName_ends start inside.left
  have contents := inside.right
  rw [← add_lengths]
  exact ⟨fdt32ToCpu_be32 stored.left, inside.left.left, named, contents⟩

theorem aligned_name {name : CString} (aligned : p.toNat % 4 = 0) :
    (p + BitVec.ofNat 64
      (be32 fdtBeginNode ++ padded 4 (name.bytes ++ [0])).length).toNat % 4 = 0 := by
  have string := length_padded_mod (name.bytes ++ [0])
  apply aligned_add aligned
  rw [List.length_append, length_be32]
  omega

/-- At a subnode that does not match, the scan goes on behind it. -/
private theorem path_over {name : CString} {items : List Item} {subnodes : Subnodes}
    (aligned : p.toNat % 4 = 0)
    (stored : Stored memory p ((Node.mk name items subnodes).encode ++ more))
    (other : ¬ Matches name segment)
    (later : EndsWith (fun fuel => memory.fdtPathLoop base fuel (segment.bytes ++ pathTail rest)
      (p + BitVec.ofNat 64 (Node.mk name items subnodes).encode.length)) result) :
    EndsWith (fun fuel => memory.fdtPathLoop base fuel (segment.bytes ++ pathTail rest) p)
      result := by
  rw [Node.encode, List.append_assoc, List.append_assoc] at stored
  obtain ⟨here, string, named, contents⟩ := opening_parts aligned stored
  have skipped := skipNode_ends (aligned_name aligned) contents
  have behind : p + BitVec.ofNat 64 (be32 fdtBeginNode ++ padded 4 (name.bytes ++ [0])).length +
      BitVec.ofNat 64 (items.flatMap Item.encode ++ (subnodes.encode ++ be32 fdtEndNode)).length =
      p + BitVec.ofNat 64 (Node.mk name items subnodes).encode.length := by
    rw [add_lengths, Node.encode, opening]
    simp only [List.append_assoc]
  rw [behind] at skipped
  let next (fuel : ℕ) (behind : Option Word) : Option (BitVec 32) := match behind with
    | none => some (-1#32)
    | some behind => memory.fdtPathLoop base fuel (segment.bytes ++ pathTail rest) behind
  let whole (fuel : ℕ) (start : Word) : Option (BitVec 32) :=
    (memory.skipNode fuel start).bind (next fuel)
  have rounds : EndsWith (fun fuel => whole fuel
      (p + BitVec.ofNat 64 (be32 fdtBeginNode ++ padded 4 (name.bytes ++ [0])).length)) result :=
    skipped.bind later
  refine (named.bind rounds).round fun fuel => ?_
  rw [path_begin here string]
  simp only [if_neg other]
  rfl

/-- At a subnode that matches, the scan returns it or goes down into it. -/
theorem path_into {name : CString} {items : List Item} {subnodes : Subnodes}
    (aligned : p.toNat % 4 = 0) (here : p = base + BitVec.ofNat 64 offset)
    (stored : Stored memory p ((Node.mk name items subnodes).encode ++ more))
    (matched : Matches name segment) (inside : ∀ first others, rest = first :: others →
      EndsWith (fun fuel => memory.fdtPathLoop base fuel (first.bytes ++ pathTail others)
        (p + BitVec.ofNat 64 (opening name items).length))
        (answer (subnodes.locate first others) (offset + (opening name items).length))) :
    EndsWith (fun fuel => memory.fdtPathLoop base fuel (segment.bytes ++ pathTail rest) p)
      (answer ((Node.mk name items subnodes).locate rest) offset) := by
  rw [Node.encode, List.append_assoc, List.append_assoc] at stored
  obtain ⟨token, string, named, contents⟩ := opening_parts aligned stored
  cases rest with
  | nil =>
    have distance : (p - base).setWidth 32 = BitVec.ofNat 32 offset := by
      rw [here, BitVec.add_comm, BitVec.add_sub_cancel]
      apply BitVec.eq_of_toNat_eq
      rw [BitVec.toNat_setWidth, BitVec.toNat_ofNat, BitVec.toNat_ofNat]
      omega
    have found := named.map fun _ => BitVec.ofNat 32 offset
    refine found.round fun fuel => ?_
    rw [path_begin token string, Option.map_eq_bind]
    simp only [if_pos matched, distance, if_true]
    rfl
  | cons first others =>
    have goesOn := inside first others rfl
    have whole : be32 fdtBeginNode ++ padded 4 (name.bytes ++ [0]) ++ items.flatMap Item.encode =
        opening name items := by
      rw [opening, List.append_assoc]
    have down := path_items (aligned_name aligned) contents (by rwa [add_lengths, whole])
    rw [Node.locate_cons, answer_map]
    refine (named.bind down).round fun fuel => ?_
    rw [path_begin token string]
    simp only [if_pos matched, if_neg (List.cons_ne_nil first others)]
    rfl

/-- Among the subnodes of a node the scan comes to the first that matches. -/
theorem path_siblings {subnodes : Subnodes} (aligned : p.toNat % 4 = 0)
    (here : p = base + BitVec.ofNat 64 offset)
    (stored : Stored memory p (subnodes.encode ++ (be32 fdtEndNode ++ more)))
    (into : ∀ {q place name items inner after}, q.toNat % 4 = 0 → q = base + BitVec.ofNat 64 place →
      Stored memory q ((Node.mk name items inner).encode ++ after) → Matches name segment →
        EndsWith (fun fuel => memory.fdtPathLoop base fuel (segment.bytes ++ pathTail rest) q)
          (answer ((Node.mk name items inner).locate rest) place)) :
    EndsWith (fun fuel => memory.fdtPathLoop base fuel (segment.bytes ++ pathTail rest) p)
      (answer (subnodes.locate segment rest) offset) := by
  induction subnodes generalizing p offset with
  | nil =>
    rw [Subnodes.encode, List.nil_append] at stored
    exact path_end (fdt32ToCpu_be32 stored.left)
  | nop siblings ih =>
    rw [Subnodes.encode, List.append_assoc] at stored
    rw [locate_nop, answer_map]
    apply path_nop (fdt32ToCpu_be32 stored.left)
    apply ih (aligned_add aligned (show 4 % 4 = 0 from rfl)) _ stored.right
    rw [here, length_be32, BitVec.ofNat_add, BitVec.add_assoc]
  | cons name items inner siblings _ ih =>
    have shape : (Subnodes.cons name items inner siblings).encode ++ (be32 fdtEndNode ++ more) =
        (Node.mk name items inner).encode ++ (siblings.encode ++ (be32 fdtEndNode ++ more)) := by
      simp only [Subnodes.encode, Node.encode, List.append_assoc]
    rw [shape] at stored
    by_cases matched : Matches name segment
    · rw [locate_match matched]
      exact into aligned here stored matched
    · rw [locate_skip matched, answer_map]
      apply path_over aligned stored matched
      apply ih (aligned_add aligned (length_node_mod _)) _ stored.right
      rw [here, BitVec.ofNat_add, BitVec.add_assoc]

/-- The scan that has come to the subnodes of a node finds what the rest of the path leads to. -/
private theorem path_subnodes {subnodes : Subnodes} (aligned : p.toNat % 4 = 0)
    (here : p = base + BitVec.ofNat 64 offset)
    (stored : Stored memory p (subnodes.encode ++ (be32 fdtEndNode ++ more))) :
    EndsWith (fun fuel => memory.fdtPathLoop base fuel (segment.bytes ++ pathTail rest) p)
      (answer (subnodes.locate segment rest) offset) := by
  induction rest generalizing segment subnodes p offset more with
  | nil =>
    apply path_siblings aligned here stored
    intro q place name items inner after aligned here stored matched
    exact path_into aligned here stored matched nofun
  | cons first others down =>
    apply path_siblings aligned here stored
    intro q place name items inner after aligned here stored matched
    apply path_into aligned here stored matched
    rintro _ _ ⟨rfl, rfl⟩
    rw [Node.encode, List.append_assoc, List.append_assoc] at stored
    apply down (aligned_add aligned (length_opening_mod name items)) _ stored.right
    rw [here, BitVec.ofNat_add, BitVec.add_assoc]

end Paths

/-! ## Properties -/

section Properties

variable {memory : ByteMemory} {strings p : Word} {name : CString} {more : List UInt8}
  {result : Option (Word × BitVec 32)}

theorem getprop_nop (here : memory.fdt32ToCpu p = fdtNop)
    (later : EndsWith
      (fun fuel => memory.fdtGetpropLoop strings name.bytes fuel (p + 4#64)) result) :
    EndsWith (fun fuel => memory.fdtGetpropLoop strings name.bytes fuel p) result := by
  refine later.round fun fuel => ?_
  simp [ByteMemory.fdtGetpropLoop, here, fdtNop, fdtProp]

/-- Among the subnodes there is no property of the node. -/
private theorem getprop_subnodes {subnodes : Subnodes}
    (stored : Stored memory p (subnodes.encode ++ (be32 fdtEndNode ++ more))) :
    EndsWith (fun fuel => memory.fdtGetpropLoop strings name.bytes fuel p) none := by
  induction subnodes generalizing p with
  | nil =>
    rw [Subnodes.encode, List.nil_append] at stored
    refine (EndsWith.const none).round fun fuel => ?_
    simp [ByteMemory.fdtGetpropLoop, fdt32ToCpu_be32 stored.left, fdtEndNode, fdtProp, fdtNop]
  | nop rest ih =>
    rw [Subnodes.encode, List.append_assoc] at stored
    exact getprop_nop (fdt32ToCpu_be32 stored.left) (ih stored.right)
  | cons name items inner rest _ _ =>
    refine (EndsWith.const none).round fun fuel => ?_
    simp [ByteMemory.fdtGetpropLoop, fdt32ToCpu_be32 stored.left.left.left,
      fdtBeginNode, fdtProp, fdtNop]

/-- A result that hands out the property. -/
def HandsOut (memory : ByteMemory) (property : Option Property)
    (result : Option (Word × BitVec 32)) : Prop :=
  match property with
  | none => result = none
  | some property =>
    ∃ value, result = some (value, BitVec.ofNat 32 property.value.length) ∧
      Stored memory value property.value

theorem getprop_items {items : List Item} {subnodes : Subnodes} (name : CString)
    (aligned : p.toNat % 4 = 0) (stored : Stored memory p (items.flatMap Item.encode ++
      (subnodes.encode ++ (be32 fdtEndNode ++ more)))) (named : ∀ property ∈ properties items,
      Stored memory (strings + property.nameoff.setWidth 64) (property.name.bytes ++ [0])) :
    ∃ result, EndsWith (fun fuel => memory.fdtGetpropLoop strings name.bytes fuel p) result ∧
      HandsOut memory
      ((properties items).find? fun property => property.name.bytes = name.bytes) result := by
  induction items generalizing p with
  | nil => exact ⟨none, getprop_subnodes stored, rfl⟩
  | cons item rest ih =>
    rw [List.flatMap_cons, List.append_assoc] at stored
    have next := aligned_add aligned (length_item_mod item)
    cases item with
    | nop =>
      obtain ⟨result, ends, found⟩ := ih next stored.right named
      exact ⟨result, getprop_nop (fdt32ToCpu_be32 stored.left) ends, found⟩
    | property property =>
      have all : properties (.property property :: rest) = property :: properties rest := rfl
      rw [all] at named ⊢
      obtain ⟨here, others⟩ := List.forall_mem_cons.mp named
      have token := fdt32ToCpu_be32 stored.left.left
      have fields := stored.left.right
      have len := fdt32ToCpu_be32 fields.left
      have nameoff := fdt32ToCpu_be32 fields.right.left
      have value := fields.right.right
      rw [BitVec.add_assoc] at value
      have compare := strcmp_eq_zero here property.name.nulFree name.nulFree
      by_cases same : property.name.bytes = name.bytes
      · refine ⟨some (p + 4#64 + 8#64, BitVec.ofNat 32 property.value.length),
          (EndsWith.const _).round fun fuel => ?_, ?_⟩
        · have called : memory.strcmp (strings + (memory.fdt32ToCpu (p + 4#64 + 4#64)).setWidth 64)
            name.bytes = 0 := by
            rw [show memory.fdt32ToCpu (p + 4#64 + 4#64) = property.nameoff from nameoff]
            exact compare.mpr same
          have length : memory.fdt32ToCpu (p + 4#64) = BitVec.ofNat 32 property.value.length := len
          simp only [ByteMemory.fdtGetpropLoop, token, if_true, called, length]
        · simp only [List.find?_cons, decide_eq_true same]
          exact ⟨p + 4#64 + 8#64, rfl, value.left⟩
      · obtain ⟨result, ends, found⟩ := ih next stored.right others
        refine ⟨result, ?_, ?_⟩
        · rw [← skipValue_property aligned stored] at ends
          refine ends.round fun fuel => ?_
          have called : memory.strcmp (strings + (memory.fdt32ToCpu (p + 4#64 + 4#64)).setWidth 64)
              name.bytes ≠ 0 := by
            rw [show memory.fdt32ToCpu (p + 4#64 + 4#64) = property.nameoff from nameoff]
            exact fun zero => same (compare.mp zero)
          simp only [ByteMemory.fdtGetpropLoop, token, if_true, if_neg called]
        · simp only [List.find?_cons, decide_eq_false same]
          exact found

end Properties

/-! ## Lookups -/

section Lookups

variable {memory : ByteMemory} {fdt : Word} {root node : Node} {offset : ℕ}

private theorem firstMatch_place {subnodes : Subnodes} {segment : Segment} {distance : ℕ}
    {child : Node} (found : subnodes.firstMatch segment = some (distance, child)) :
    (∃ before after, subnodes.encode = before ++ (child.encode ++ after) ∧
      before.length = distance) ∧ distance % 4 = 0 ∧
      ∀ property ∈ child.properties, property ∈ subnodes.properties := by
  induction subnodes generalizing distance with
  | nil => cases found
  | nop rest ih =>
    obtain ⟨⟨inner, child'⟩, foundRest, same⟩ := Option.map_eq_some_iff.mp found
    obtain ⟨rfl, rfl⟩ := Prod.mk.inj same
    obtain ⟨⟨before, after, shape, length⟩, whole, inherits⟩ := ih foundRest
    refine ⟨⟨be32 fdtNop ++ before, after, ?_, ?_⟩, ?_, inherits⟩
    · rw [Subnodes.encode, shape, List.append_assoc]
    · rw [List.length_append, length]
    · rw [length_be32]
      omega
  | cons name items inside rest _ ih =>
    have shape : (Subnodes.cons name items inside rest).encode =
        (Node.mk name items inside).encode ++ rest.encode := by
      simp only [Subnodes.encode, Node.encode, List.append_assoc]
    have all : (Subnodes.cons name items inside rest).properties =
        (Node.mk name items inside).properties ++ rest.properties := by
      simp only [Subnodes.properties, Node.properties, List.append_assoc]
    rw [shape, all]
    rw [Subnodes.firstMatch] at found
    split at found
    · obtain ⟨rfl, rfl⟩ := Prod.mk.inj (Option.some.inj found)
      exact ⟨⟨[], rest.encode, rfl, rfl⟩, rfl,
        fun property inherits => List.mem_append_left _ inherits⟩
    · obtain ⟨⟨inner, child'⟩, foundRest, same⟩ := Option.map_eq_some_iff.mp found
      obtain ⟨rfl, rfl⟩ := Prod.mk.inj same
      obtain ⟨⟨before, after, shapeRest, length⟩, whole, inherits⟩ := ih foundRest
      have node := length_node_mod (Node.mk name items inside)
      refine ⟨⟨(Node.mk name items inside).encode ++ before, after, ?_, ?_⟩,
        ?_, fun property member =>
        List.mem_append_right _ (inherits property member)⟩
      · rw [shapeRest, List.append_assoc]
      · rw [List.length_append, length]
      · simp only at whole ⊢
        omega

/-- Where the node a path leads to is stored. -/
theorem locate_place {path : List Segment} (found : root.locate path = some (offset, node)) :
    (∃ before after, root.encode = before ++ (node.encode ++ after) ∧ before.length = offset) ∧
    offset % 4 = 0 ∧
      ∀ property ∈ node.properties, property ∈ root.properties := by
  induction path generalizing root offset with
  | nil =>
    obtain ⟨rfl, rfl⟩ := Prod.mk.inj (Option.some.inj found)
    exact ⟨⟨[], [], (List.append_nil _).symm, rfl⟩, rfl, fun _ member => member⟩
  | cons segment rest ih =>
    rw [Node.locate] at found
    split at found
    · cases found
    · rename_i distance child foundChild
      obtain ⟨⟨inner, node'⟩, foundRest, same⟩ := Option.map_eq_some_iff.mp found
      obtain ⟨rfl, rfl⟩ := Prod.mk.inj same
      obtain ⟨⟨before, after, shape, length⟩, whole, inherits⟩ := firstMatch_place foundChild
      obtain ⟨⟨before', after', shape', length'⟩, whole', inherits'⟩ := ih foundRest
      have start := length_opening_mod root.name root.items
      refine ⟨⟨opening root.name root.items ++ (before ++ before'),
        after' ++ (after ++ be32 fdtEndNode), ?_, ?_⟩, ?_, fun property member =>
        List.mem_append_right _ (inherits property (inherits' property member))⟩
      · rw [Node.encode, shape, shape']
        simp only [List.append_assoc]
      · rw [List.length_append, List.length_append, length, length']
      · simp only at whole whole' ⊢
        omega

theorem fdtPathOffset_ends (device : FdtAt memory fdt root) (path : List Segment) :
    EndsWith (fun fuel => memory.fdtPathOffset fuel fdt (pathString path))
      (answer (root.locate path) 0) := by
  have magic := fdt32ToCpu_be32 device.magic
  have tokens := device.tokens
  have aligned := device.structAligned
  cases path with
  | nil =>
    refine ⟨0, fun fuel _ => ?_⟩
    simp [ByteMemory.fdtPathOffset, magic, pathString, Node.locate, answer]
  | cons segment rest =>
    have string : pathString (segment :: rest) = pathSlash :: (segment.bytes ++ pathTail rest) :=
      rfl
    have nonempty : segment.bytes ++ pathTail rest ≠ [] :=
      List.append_ne_nil_of_left_ne_nil segment.nonempty _
    rw [Node.encode, List.append_assoc, List.append_assoc] at tokens
    obtain ⟨token, -, named, contents⟩ := opening_parts aligned tokens
    have whole : be32 fdtBeginNode ++ padded 4 (root.name.bytes ++ [0]) ++
        root.items.flatMap Item.encode =
        opening root.name root.items := by
      rw [opening, List.append_assoc]
    have inside : Stored memory
        (memory.fdtStructBase fdt + BitVec.ofNat 64 (opening root.name root.items).length)
        (root.subnodes.encode ++ (be32 fdtEndNode ++ be32 fdtEnd)) := tokens.right
    have scanned : EndsWith (fun fuel =>
        memory.fdtPathLoop (memory.fdtStructBase fdt) fuel (segment.bytes ++ pathTail rest)
        (memory.fdtStructBase fdt + BitVec.ofNat 64 (opening root.name root.items).length))
        (answer (root.subnodes.locate segment rest) (opening root.name root.items).length) :=
      path_subnodes (aligned_add aligned (length_opening_mod root.name root.items)) rfl inside
    have down := path_items (aligned_name aligned) contents (by rwa [add_lengths, whole])
    rw [Node.locate_cons, answer_map, Nat.zero_add]
    obtain ⟨enough, ends⟩ := named.bind down
    refine ⟨enough, fun fuel large => ?_⟩
    have result := ends fuel large
    simp only [ByteMemory.fdtPathOffset, string, magic, ne_eq, not_true_eq_false, if_false,
      nonempty, token, if_true]
    exact result

theorem fdtGetprop_ends (device : FdtAt memory fdt root) {path : List Segment}
    (found : root.locate path = some (offset, node)) (small : offset < 2 ^ 31) (name : CString) :
    ∃ result,
      EndsWith (fun fuel => memory.fdtGetprop fuel fdt (BitVec.ofNat 32 offset) name.bytes) result ∧
      HandsOut memory (node.firstProperty name) result := by
  obtain ⟨⟨before, after, shape, rfl⟩, whole, inherits⟩ := locate_place found
  have aligned := aligned_add device.structAligned whole
  have tokens := device.tokens
  rw [shape, List.append_assoc] at tokens
  have here := tokens.right
  rw [Node.encode, List.append_assoc, List.append_assoc, List.append_assoc] at here
  obtain ⟨token, -, named, contents⟩ := opening_parts aligned here
  have place : memory.fdtStructBase fdt + (BitVec.ofNat 32 before.length).signExtend 64 =
      memory.fdtStructBase fdt + BitVec.ofNat 64 before.length := by
    have positive : (BitVec.ofNat 32 before.length).msb = false := by
      rw [BitVec.msb_eq_false_iff_two_mul_lt, BitVec.toNat_ofNat]
      omega
    rw [BitVec.signExtend_eq_setWidth_of_msb_false positive, setWidth_filesize (by omega)]
  obtain ⟨result, ends, handsOut⟩ := getprop_items name (aligned_name aligned) contents
    fun property member =>
    device.strings property (inherits property (List.mem_append_left _ member))
  refine ⟨result, ?_, handsOut⟩
  obtain ⟨enough, ends⟩ := named.bind ends
  refine ⟨enough, fun fuel large => ?_⟩
  have result := ends fuel large
  simp only [ByteMemory.fdtGetprop, place, token, ne_eq, not_true_eq_false, if_false]
  exact result

/-- For every path `fdt_path_offset` returns, as an `int`, the offset of the node it leads to, or -1
if there is none; at an offset that an `int` holds `fdt_getprop` hands out the first property of the
name, with its length as an `int`. -/
theorem fdt_lookup (device : FdtAt memory fdt root) (path : List Segment) :
    match root.locate path with
    | none => EndsWith (fun fuel => memory.fdtPathOffset fuel fdt (pathString path)) (-1#32)
    | some (offset, node) =>
      EndsWith (fun fuel => memory.fdtPathOffset fuel fdt (pathString path))
        (BitVec.ofNat 32 offset) ∧
      (offset < 2 ^ 31 → ∀ name : CString, ∃ result,
        EndsWith (fun fuel =>
          memory.fdtGetprop fuel fdt (BitVec.ofNat 32 offset) name.bytes) result ∧
          HandsOut memory (node.firstProperty name) result) := by
  have returns := fdtPathOffset_ends device path
  cases found : root.locate path with
  | none =>
    rw [found] at returns
    exact returns
  | some here =>
    obtain ⟨offset, node⟩ := here
    rw [found, answer, Nat.zero_add] at returns
    exact ⟨returns, fun small name => fdtGetprop_ends device found small name⟩

/-! ## Every tree can be flattened -/

/-- The header, the empty memory reservation block, the structure block and the strings block. -/
def blob (root : Node) (strings : List UInt8) : List UInt8 :=
  let size := (root.encode ++ be32 fdtEnd).length
  be32 fdtMagic ++ (be32 (BitVec.ofNat 32 (56 + size + strings.length)) ++
    (be32 56#32 ++ (be32 (BitVec.ofNat 32 (56 + size)) ++
    (be32 40#32 ++ be32 17#32 ++ be32 16#32 ++ be32 0#32 ++ be32 (BitVec.ofNat 32 strings.length) ++
      be32 (BitVec.ofNat 32 size) ++ List.replicate 16 0 ++
      ((root.encode ++ be32 fdtEnd) ++ strings)))))

/-- A tree is well formed where it is stored, when the strings block holds the names of its
properties. -/
theorem fdtAt_blob {base : Word} (aligned : base.toNat % 4 = 0) {strings : List UInt8}
    (fits : 56 + (root.encode ++ be32 fdtEnd).length + strings.length < 2 ^ 32)
    (names : ∀ property ∈ root.properties, ∃ before after,
      strings = before ++ ((property.name.bytes ++ [0]) ++ after) ∧
      property.nameoff = BitVec.ofNat 32 before.length)
    (stored : Stored memory base (blob root strings)) : FdtAt memory base root := by
  have blocks := stored.right.right
  rw [BitVec.add_assoc] at blocks
  have structOffset : memory.fdt32ToCpu (base + 8#64) = 56#32 := fdt32ToCpu_be32 blocks.left
  have behind := blocks.right
  rw [BitVec.add_assoc] at behind
  have stringsOffset : memory.fdt32ToCpu (base + 12#64) =
      BitVec.ofNat 32 (56 + (root.encode ++ be32 fdtEnd).length) := fdt32ToCpu_be32 behind.left
  have contents := behind.right.right
  rw [BitVec.add_assoc, BitVec.add_assoc] at contents
  have structBase : memory.fdtStructBase base = base + 56#64 := by
    rw [ByteMemory.fdtStructBase, structOffset]
    rfl
  have tokens : Stored memory (base + 56#64) (root.encode ++ be32 fdtEnd) := contents.left
  have text := contents.right
  have stringsBase : memory.fdtStringsBase base =
      base + 56#64 + BitVec.ofNat 64 (root.encode ++ be32 fdtEnd).length := by
    rw [ByteMemory.fdtStringsBase, stringsOffset, setWidth_filesize (by omega),
      BitVec.ofNat_add, BitVec.add_assoc]
  refine ⟨aligned, stored.left, ?_, ?_, fun property member => ?_, ?_⟩
  · rw [structBase]
    exact aligned_add aligned (show 56 % 4 = 0 from rfl)
  · rw [structBase]
    exact tokens
  · obtain ⟨before, after, shape, place⟩ := names property member
    have total := congrArg List.length shape
    rw [List.length_append] at total
    have short : before.length < 2 ^ 32 := by omega
    rw [stringsBase, place, setWidth_filesize short]
    have here : Stored memory (base + 56#64 + BitVec.ofNat 64 (root.encode ++ be32 fdtEnd).length)
        (before ++ ((property.name.bytes ++ [0]) ++ after)) := shape ▸ text
    exact here.right.left
  · rw [structOffset]
    change 56 + _ < 2 ^ 32
    omega

theorem length_blob (root : Node) (strings : List UInt8) :
    (blob root strings).length = 56 + (root.encode ++ be32 fdtEnd).length + strings.length := by
  simp only [blob, List.length_append, length_be32, List.length_replicate]
  omega

/-- The root of a tree with one property, named `p`, and one subnode, named `c@0`. -/
def smallTree (value : List UInt8) (bound : value.length < 2 ^ 32) : Node :=
  ⟨⟨[], by decide⟩, [.property ⟨⟨[112], by decide⟩, 0#32, value, bound⟩],
    .nop (.cons ⟨[99, 64, 48], by decide⟩ [] .nil .nil)⟩

theorem smallTree_at {value : List UInt8} (bound : value.length < 2 ^ 32 - 200) :
    FdtAt (memoryOf 4096#64 (blob (smallTree value (by omega)) [112, 0]))
      4096#64 (smallTree value (by omega)) := by
  have rounded : (padded 4 value).length ≤ value.length + 3 := by
    rw [length_padded (by decide), roundUp]
    omega
  have name : (padded 4 [0]).length = 4 := rfl
  have nameChild : (padded 4 [99, 64, 48, 0]).length = 4 := rfl
  have fits : 56 + ((smallTree value (by omega)).encode ++ be32 fdtEnd).length +
      [112, 0].length < 2 ^ 32 := by
    simp only [smallTree, Node.encode, opening, Subnodes.encode, Item.encode, List.length_append,
      length_be32, List.flatMap_cons, List.flatMap_nil, List.length_nil, List.length_cons,
      List.nil_append, List.cons_append, name, nameChild]
    omega
  refine fdtAt_blob (by decide) fits (fun property member => ?_) (stored_memoryOf _ _ ?_)
  · obtain rfl := List.mem_singleton.mp member
    exact ⟨[], [], rfl, rfl⟩
  · rw [length_blob]
    omega

/-- The length of a property of two gigabytes comes out negative. -/
theorem length_negative : ¬ ∀ (memory : ByteMemory) (fdt : Word) (root node : Node)
    (path : List Segment) (offset : ℕ) (name : CString)
    (property : Property), FdtAt memory fdt root → root.locate path = some (offset, node) →
    node.firstProperty name = some property → ∃ value length,
      EndsWith (fun fuel => memory.fdtGetprop fuel fdt (BitVec.ofNat 32 offset) name.bytes)
      (some (value, length)) ∧
        length.toInt = property.value.length := by
  intro always
  have size : (List.replicate (2 ^ 31) (0 : UInt8)).length = 2 ^ 31 := List.length_replicate
  generalize List.replicate (2 ^ 31) (0 : UInt8) = zeros at size
  have small : zeros.length < 2 ^ 32 - 200 := by
    rw [size]
    decide
  have device := smallTree_at small
  have found : (smallTree zeros (by omega)).locate [] = some (0, smallTree zeros (by omega)) := rfl
  have first : (smallTree zeros (by omega)).firstProperty ⟨[112], by decide⟩ =
      some ⟨⟨[112], by decide⟩, 0#32, zeros, by omega⟩ := rfl
  obtain ⟨value, length, ends, same⟩ := always _ _ _ _ [] 0 _ _ device found first
  obtain ⟨result, returns, handsOut⟩ := fdtGetprop_ends device found (by decide) ⟨[112], by decide⟩
  rw [first] at handsOut
  obtain ⟨value', rfl, -⟩ := handsOut
  obtain ⟨-, rfl⟩ := Prod.mk.inj (Option.some.inj (ends.unique returns))
  simp only [size] at same
  exact absurd same (by decide)

/-- The path `/c` leads to the subnode `c@0`, behind the property of the root and a padding
token. -/
theorem fdt_lookup_small : ∃ (memory : ByteMemory) (fdt : Word) (segment : Segment),
    FdtAt memory fdt (smallTree [1, 2, 3, 4] (by decide)) ∧ segment.bytes = [99] ∧
      EndsWith (fun fuel => memory.fdtPathOffset fuel fdt (pathString [segment])) 28#32 := by
  let segment : Segment := ⟨[99], by decide, by decide, by decide⟩
  have small : ([1, 2, 3, 4] : List UInt8).length < 2 ^ 32 - 200 := by decide
  have device := smallTree_at small
  have found := fdt_lookup device [segment]
  have located : (smallTree [1, 2, 3, 4] (by decide)).locate [segment] =
      some (28, ⟨⟨[99, 64, 48], by decide⟩, [], .nil⟩) := by
    rfl
  rw [located] at found
  exact ⟨_, _, segment, device, rfl, found.1⟩

end Lookups

end OscKernel.Soundness.DeviceTree
