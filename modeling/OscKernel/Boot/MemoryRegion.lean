import OscKernel.Boot.FdtWalk

/-!
# The memory of the machine (`dtb.c`)

`dtb_get_memory_region` looks for a `reg` property directly in a node below the root whose name is
`memory`.  One flag says that the walk is in such a node, outside its subnodes; every beginning and
every end of a node writes it.

* `dtbGetMemoryRegion`: the function; `DtNode.memoryRegion`: what it is to find in a tree.
* `dtbGetMemoryRegion_eq`: it finds that.

The flag is cleared at the beginning of a subnode and is not set again at its end.  A property
behind a subnode of `memory` would therefore be overlooked; a well-formed tree has the properties of
a node before its subnodes, and there the flag says what its name says.  The induction is over the
tree, with the flag `false` at the beginning and the end of every node but those below the root.

The function takes the first pair of addresses of a `reg` property that has at least sixteen bytes,
and goes on to the next node when the property is shorter.  It does not look at `device_type`, and
neither does `DtNode.memoryRegion`.
-/

namespace OscKernel
namespace Boot

open Bytes

/-- `"memory"`. -/
def memoryName : List UInt8 := [0x6d, 0x65, 0x6d, 0x6f, 0x72, 0x79]

/-- `current_depth` and `in_memory_node`. -/
structure MemoryScan where
  currentDepth : ℤ
  inMemoryNode : Bool

/-- What `dtb_get_memory_region` does at the tokens. -/
def memoryVisitor : Visitor MemoryScan (ℕ × ℕ) where
  beginNode m nodeName s :=
    let currentDepth := s.currentDepth + 1
    if currentDepth = 1 then
      (nodeNameMatch m nodeName memoryName).map fun isMemory => ⟨currentDepth, isMemory⟩
    else some ⟨currentDepth, false⟩
  endNode s := ⟨s.currentDepth - 1, false⟩
  prop m name cur propLen s :=
    if s.inMemoryNode = true then
      (propNameEq m name regName).bind fun isReg =>
      if isReg = true ∧ 16 ≤ propLen then
        (be64 m cur).bind fun addr => (be64 m (cur + 8)).map fun sz => .inr (addr, sz)
      else some (.inl s)
    else some (.inl s)
  more _ := true

/-- `dtb_get_memory_region`, with pointers that are not `NULL` apart from `g_dtb_addr`: what it
returns, and what is in `*base` and `*size` after it.  The loops make at most `fuel` rounds. -/
def dtbGetMemoryRegion (m : Memory) (gDtbAddr base size fuel : ℕ) : Option (ℤ × ℕ × ℕ) :=
  (memoryVisitor.walk m gDtbAddr fuel ⟨-1, false⟩).map fun
    | .inl _ => (-1, base, size)
    | .inr r => (0, r)

/-! ## What it is to find -/

namespace DtNode

/-- The nodes below the node. -/
def children : DtNode → List DtNode
  | .mk _ _ children => children

/-- The address and the size that the node has in a `reg` property of at least 16 bytes. -/
def region (n : DtNode) : Option (ℕ × ℕ) :=
  (n.props.find? fun p => p.name = regName ∧ 16 ≤ p.data.length).map fun p => regEntry p.data 0

/-- The first of the nodes that is named `memory` and has such a property. -/
def firstRegion (ns : List DtNode) : Option (ℕ × ℕ) :=
  (ns.filter fun n => baseName n.name = memoryName).findSome? region

/-- The memory that the tree describes. -/
def memoryRegion (root : DtNode) : Option (ℕ × ℕ) := firstRegion root.children

end DtNode

/-! ## The walk over the tree -/

/-- The same at the items. -/
def memoryItems : ItemVisitor MemoryScan (ℕ × ℕ) where
  beginNode name s :=
    ⟨s.currentDepth + 1, decide (s.currentDepth + 1 = 1 ∧ baseName name = memoryName)⟩
  endNode s := ⟨s.currentDepth - 1, false⟩
  prop name data s :=
    if s.inMemoryNode = true ∧ name = regName ∧ 16 ≤ data.length then .inr (regEntry data 0)
    else .inl s
  more _ := true

theorem memoryVisitor_reads (m : Memory) : memoryVisitor.Reads memoryItems m where
  beginNode {a name} s h hname := by
    have hmatch := @nodeNameMatch_of_at m a name memoryName h hname (by decide) (by decide)
    unfold memoryVisitor memoryItems
    dsimp only
    by_cases hd : s.currentDepth + 1 = 1
    · rw [if_pos hd, hmatch, Option.map_some]
      simp [hd]
    · rw [if_neg hd]
      simp [hd]
  endNode := rfl
  prop {a cur name data} s h hname hdata := by
    have heq := @propNameEq_of_at m a name regName h hname (by decide)
    unfold memoryVisitor memoryItems
    dsimp only
    by_cases hin : s.inMemoryNode = true
    · rw [if_pos hin, heq, Option.bind_some]
      by_cases hreg : name = regName ∧ 16 ≤ data.length
      · have hentry := @be64_regEntry m cur data 0 hdata hreg.2
        rw [Nat.mul_zero, Nat.add_zero] at hentry
        rw [if_pos ⟨decide_eq_true hreg.1, hreg.2⟩, if_pos ⟨hin, hreg⟩, hentry.1, Option.bind_some,
          hentry.2, Option.map_some]
      · rw [if_neg fun hand => hreg ⟨of_decide_eq_true hand.1, hand.2⟩,
          if_neg fun hand => hreg hand.2]
    · rw [if_neg hin, if_neg fun hand => hin hand.1]
  more := rfl

section Tree

variable {rest : List Item} {d : ℤ} {b : Bool}

/-- Properties outside a memory node. -/
theorem run_props (ps : List DtProp) : memoryItems.run (ps.map DtProp.item ++ rest) ⟨d, false⟩ =
    memoryItems.run rest ⟨d, false⟩ := by
  induction ps with
  | nil => rfl
  | cons p ps ih =>
    rw [List.map_cons, List.cons_append, DtProp.item, ItemVisitor.run_prop rfl]
    exact ih

/-- The properties of a memory node. -/
theorem run_memoryProps (ps : List DtProp) :
    memoryItems.run (ps.map DtProp.item ++ rest) ⟨d, true⟩ =
      ((ps.find? fun p => p.name = regName ∧ 16 ≤ p.data.length).map fun p =>
        regEntry p.data 0).elim (memoryItems.run rest ⟨d, true⟩) .inr := by
  induction ps with
  | nil => rfl
  | cons p ps ih =>
    rw [List.map_cons, List.cons_append, DtProp.item, ItemVisitor.run_prop rfl, List.find?_cons]
    by_cases h : p.name = regName ∧ 16 ≤ p.data.length
    · have hprop : memoryItems.prop p.name p.data ⟨d, true⟩ = .inr (regEntry p.data 0) :=
        if_pos ⟨rfl, h⟩
      rw [hprop, decide_eq_true h]
      rfl
    · have hprop : memoryItems.prop p.name p.data ⟨d, true⟩ = .inl ⟨d, true⟩ :=
        if_neg fun hand => h hand.2
      rw [hprop, decide_eq_false h]
      exact ih

mutual

/-- A node below depth 1. -/
theorem run_node (n : DtNode) (rest : List Item) {d : ℤ} (b : Bool) (hd : 1 ≤ d) :
    memoryItems.run (n.items ++ rest) ⟨d, b⟩ = memoryItems.run rest ⟨d, false⟩ := by
  cases n with
  | mk name props children =>
    have hbegin : memoryItems.beginNode name ⟨d, b⟩ = ⟨d + 1, false⟩ := by
      have hne : ¬ (d + 1 = 1 ∧ baseName name = memoryName) := fun hand => by omega
      exact congrArg (MemoryScan.mk (d + 1)) (decide_eq_false hne)
    have hforest := run_forest children rest (d := d + 1) false (by omega)
    rw [Int.add_sub_cancel] at hforest
    rw [DtNode.items, List.cons_append, ItemVisitor.run_beginNode rfl, hbegin, List.append_assoc,
      run_props, List.append_assoc]
    exact hforest

/-- The nodes of a body, up to its end. -/
theorem run_forest (ns : List DtNode) (rest : List Item) {d : ℤ} (b : Bool) (hd : 1 ≤ d) :
    memoryItems.run (DtNode.itemsForest ns ++ .endNode :: rest) ⟨d, b⟩ =
      memoryItems.run rest ⟨d - 1, false⟩ := by
  cases ns with
  | nil => exact ItemVisitor.run_endNode rfl
  | cons n ns =>
    rw [DtNode.itemsForest, List.append_assoc, run_node n _ b hd]
    exact run_forest ns rest false hd

end

/-- **A node below the root.** -/
theorem run_child (n : DtNode) : memoryItems.run (n.items ++ rest) ⟨0, b⟩ =
    (if baseName n.name = memoryName then n.region else none).elim
      (memoryItems.run rest ⟨0, false⟩) .inr := by
  cases n with
  | mk name props children =>
    have hforest : ∀ b, memoryItems.run (DtNode.itemsForest children ++ ([.endNode] ++ rest))
        ⟨1, b⟩ = memoryItems.run rest ⟨0, false⟩ := fun b => run_forest children rest b le_rfl
    rw [DtNode.items, List.cons_append, ItemVisitor.run_beginNode rfl, List.append_assoc,
      List.append_assoc, DtNode.name, DtNode.region, DtNode.props]
    by_cases hname : baseName name = memoryName
    · have hbegin : memoryItems.beginNode name ⟨0, b⟩ = ⟨1, true⟩ :=
        congrArg (MemoryScan.mk 1) (decide_eq_true ⟨rfl, hname⟩)
      rw [hbegin, run_memoryProps, hforest, if_pos hname]
    · have hbegin : memoryItems.beginNode name ⟨0, b⟩ = ⟨1, false⟩ :=
        congrArg (MemoryScan.mk 1) (decide_eq_false fun hand => hname hand.2)
      rw [hbegin, run_props, hforest, if_neg hname]
      rfl

theorem firstRegion_cons (n : DtNode) (ns : List DtNode) : DtNode.firstRegion (n :: ns) =
    (if baseName n.name = memoryName then n.region else none).or (DtNode.firstRegion ns) := by
  unfold DtNode.firstRegion
  rw [List.filter_cons]
  by_cases hname : baseName n.name = memoryName
  · rw [if_pos (decide_eq_true hname), if_pos hname, List.findSome?_cons]
    cases n.region <;> rfl
  · rw [if_neg (decide_eq_true_iff.not.mpr hname), if_neg hname]
    rfl

/-- The nodes below the root. -/
theorem run_children (ns : List DtNode) :
    memoryItems.run (DtNode.itemsForest ns ++ rest) ⟨0, false⟩ =
    (DtNode.firstRegion ns).elim (memoryItems.run rest ⟨0, false⟩) .inr := by
  induction ns with
  | nil => rfl
  | cons n ns ih =>
    rw [DtNode.itemsForest, List.append_assoc, run_child, ih, firstRegion_cons]
    cases (if baseName n.name = memoryName then n.region else none) <;> rfl

/-- **The walk over a tree.** -/
theorem run_tree (root : DtNode) : memoryItems.run (root.items ++ [.fin]) ⟨-1, false⟩ =
    root.memoryRegion.elim (.inl ⟨-1, false⟩) .inr := by
  cases root with
  | mk name props children =>
    have hbegin : memoryItems.beginNode name ⟨-1, false⟩ = ⟨0, false⟩ := rfl
    have hend : memoryItems.endNode ⟨0, false⟩ = ⟨-1, false⟩ := rfl
    rw [DtNode.items, List.cons_append, ItemVisitor.run_beginNode rfl, hbegin, List.append_assoc,
      run_props, List.append_assoc, run_children, List.singleton_append,
      ItemVisitor.run_endNode rfl, hend, ItemVisitor.run_fin]
    rfl

end Tree

/-! ## The result -/

section Result

variable {m : Memory} {gDtbAddr fuel : ℕ} {blob : FdtBlob} {root : DtNode}

/-- **The memory of the machine.**  `dtb_get_memory_region` finds the address and the size in the
first `reg` property of at least sixteen bytes that stands directly in a node `memory` below the
root, and returns `-1` and leaves `*base` and `*size` as they are when the tree has none. -/
theorem dtbGetMemoryRegion_eq (hwf : blob.WellFormed gDtbAddr root) (hm : blob.Located gDtbAddr m)
    (hfuel : blob.structBlock.length < fuel) (base size : ℕ) :
    dtbGetMemoryRegion m gDtbAddr base size fuel =
      some (root.memoryRegion.elim (-1, base, size) fun r => (0, r)) := by
  have hfin : .fin ∈ items blob.strings 0 blob.tokens := by
    rw [hwf.tree]
    exact List.mem_append_right _ List.mem_cons_self
  rw [dtbGetMemoryRegion, (memoryVisitor_reads m).walk hwf.block hm hfin hfuel, hwf.tree, run_tree,
    Option.map_some]
  cases root.memoryRegion <;> rfl

/-- A gigabyte at `0x80000000`: a node whose `reg` is too short, and the one that counts, which has
another property before its `reg`. -/
def gigabyte : FdtBlob where
  header := ⟨fdtHeaderMagic, 162, 40, 156, 40, 17, 16, 0, 6, 116⟩
  tokens := [.beginNode [], .nop, .beginNode memoryName, .prop 0 [0, 0, 0, 0, 0, 0, 0, 1], .endNode,
    .beginNode (memoryName ++ [atSign, 0x38]), .prop 4 [],
    .prop 0 [0, 0, 0, 0, 0x80, 0, 0, 0, 0, 0, 0, 0, 0x40, 0, 0, 0], .endNode, .endNode, .fin]
  strings := regName ++ [0, 0x78, 0]

/-- The tree of `gigabyte`: two nodes are called `memory`, and the `reg` of the first one is too
short. -/
def gigabyteRoot : DtNode :=
  .mk [] [] [.mk memoryName [⟨36, regName, [0, 0, 0, 0, 0, 0, 0, 1]⟩] [],
    .mk (memoryName ++ [atSign, 0x38]) [⟨76, [0x78], []⟩,
      ⟨88, regName, [0, 0, 0, 0, 0x80, 0, 0, 0, 0, 0, 0, 0, 0x40, 0, 0, 0]⟩] []]

theorem gigabyte_wellFormed : gigabyte.WellFormed 4096 gigabyteRoot where
  base_ne := by decide
  magic := rfl
  words := by decide
  size := by decide
  aligned := by decide
  fits := by decide
  tokens := by decide
  tree := rfl

theorem dtbGetMemoryRegion_of_gigabyte :
    dtbGetMemoryRegion (ofList 4096 gigabyte.bytes) 4096 7 7 117 =
      some (0, 0x80000000, 0x40000000) :=
  dtbGetMemoryRegion_eq gigabyte_wellFormed (FdtBlob.located_bytes rfl (by decide)) (by decide) 7 7

end Result

end Boot
end OscKernel
