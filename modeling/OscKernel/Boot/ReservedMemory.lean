import OscKernel.Boot.FdtWalk

/-!
# Reserved memory (`dtb.c`)

`dtb_walk_reserved_memory` reports what the direct subnodes of the node `reserved-memory` have in
their `reg` properties.  It looks for the node below the root, follows it to its end, and stops.
Properties may stand anywhere in a node, also behind subnodes.

* `dtbWalkReservedMemory`: the function; `DtEntry.reservedRanges`: what it is to report.
* `dtbWalkReservedMemory_eq`: it reports that.

## The machine of the walk

The function has three states: it has not come to the node, it is in it, it has left it.  Together
with the depth they say whether a property is that of a direct subnode.  Depth two in the node is
enough for that, also behind a subnode of the subnode, because the depth comes back at the end of
every node.  This is why the body of a node is a list in which properties and subnodes may alternate
(`DtEntry`): the walk does not rely on their order.

The walk ends at the end of the first node with the name.  A second `reserved-memory` is not looked
at, and neither is one that stands deeper.

## What is reported

A `reg` property is read in pairs of sixteen bytes, two words for the address and two for the size,
whatever `#address-cells` and `#size-cells` say.  A pair of size zero is not reported, and what is
left over at the end of the property is no pair.
-/

namespace OscKernel
namespace Boot

open Bytes

/-- `"reserved-memory"`. -/
def reservedMemoryName : List UInt8 :=
  [0x72, 0x65, 0x73, 0x65, 0x72, 0x76, 0x65, 0x64, 0x2d, 0x6d, 0x65, 0x6d, 0x6f, 0x72, 0x79]

/-- `state`, `current_depth`, and the calls of `cb` so far. -/
structure ReservedScan where
  state : ℕ
  currentDepth : ℤ
  calls : List (ℕ × ℕ)

/-- The calls for `n` entries at `p`. -/
def reservedCalls (m : Memory) : ℕ → ℕ → Option (List (ℕ × ℕ))
  | _, 0 => some []
  | p, n + 1 =>
      (be64 m p).bind fun addr =>
      (be64 m (p + 8)).bind fun sz =>
      (reservedCalls m (p + 16) n).map fun calls => if 0 < sz then (addr, sz) :: calls else calls

/-- What `dtb_walk_reserved_memory` does at the tokens. -/
def reservedVisitor : Visitor ReservedScan Empty where
  beginNode m nodeName s :=
    let currentDepth := s.currentDepth + 1
    if s.state = 0 ∧ currentDepth = 1 then
      (nodeNameMatch m nodeName reservedMemoryName).map fun found =>
        ⟨if found then 1 else s.state, currentDepth, s.calls⟩
    else some ⟨s.state, currentDepth, s.calls⟩
  endNode s :=
    ⟨if s.state = 1 ∧ s.currentDepth = 1 then 2 else s.state, s.currentDepth - 1, s.calls⟩
  prop m name cur propLen s :=
    if s.state = 1 ∧ s.currentDepth = 2 then
      (propNameEq m name regName).bind fun isReg =>
      if isReg = true then
        (reservedCalls m cur (propLen / 16)).map fun calls =>
          .inl ⟨s.state, s.currentDepth, s.calls ++ calls⟩
      else some (.inl s)
    else some (.inl s)
  more s := decide (s.state < 2)

/-- The calls when the walk is over. -/
def callsOf : ReservedScan ⊕ Empty → List (ℕ × ℕ) := Sum.elim ReservedScan.calls Empty.elim

/-- `dtb_walk_reserved_memory`, with a `cb` that is not `NULL`: the calls of `cb`.  The loops make
at most `fuel` rounds. -/
def dtbWalkReservedMemory (m : Memory) (gDtbAddr fuel : ℕ) : Option (List (ℕ × ℕ)) :=
  (reservedVisitor.walk m gDtbAddr fuel ⟨0, -1, []⟩).map callsOf

/-! ## What it is to report -/

/-- A property or a subnode in the body of a node. -/
inductive DtEntry where
  | prop (p : DtProp)
  | node (name : List UInt8) (body : List DtEntry)

namespace DtEntry

mutual

/-- The items of an entry. -/
def items : DtEntry → List Item
  | .prop p => [p.item]
  | .node name body => .beginNode name :: (itemsBody body ++ [.endNode])

/-- The items of what is in a node. -/
def itemsBody : List DtEntry → List Item
  | [] => []
  | e :: es => e.items ++ itemsBody es

end

end DtEntry

/-- The entries of a `reg` property whose size is not zero; what is left over at the end is no
entry. -/
def regRanges (data : List UInt8) : List (ℕ × ℕ) :=
  ((List.range (data.length / 16)).map (regEntry data)).filter fun r => 0 < r.2

namespace DtEntry

/-- What is in the node. -/
def body : DtEntry → List DtEntry
  | .prop _ => []
  | .node _ body => body

/-- A node with the name, up to its unit address. -/
def isNamed (name : List UInt8) : DtEntry → Bool
  | .prop _ => false
  | .node name' _ => decide (baseName name' = name)

/-- What an entry of the body of a node says about the memory of the node. -/
def ranges : DtEntry → List (ℕ × ℕ)
  | .prop p => if p.name = regName then regRanges p.data else []
  | .node _ _ => []

/-- What the first node `reserved-memory` in the body of the root reserves: the ranges of its
subnodes, in document order. -/
def reservedRanges (body : List DtEntry) : List (ℕ × ℕ) :=
  (((body.find? (isNamed reservedMemoryName)).elim [] DtEntry.body).flatMap DtEntry.body).flatMap
    ranges

end DtEntry

/-! ## The walk over the tree -/

/-- The same at the items. -/
def reservedItems : ItemVisitor ReservedScan Empty where
  beginNode name s :=
    ⟨if s.state = 0 ∧ s.currentDepth + 1 = 1 ∧ baseName name = reservedMemoryName then 1
      else s.state,
      s.currentDepth + 1, s.calls⟩
  endNode s :=
    ⟨if s.state = 1 ∧ s.currentDepth = 1 then 2 else s.state, s.currentDepth - 1, s.calls⟩
  prop name data s :=
    if s.state = 1 ∧ s.currentDepth = 2 ∧ name = regName then
      .inl ⟨s.state, s.currentDepth, s.calls ++ regRanges data⟩
    else .inl s
  more s := decide (s.state < 2)

/-- The calls for the entries from `k` on. -/
theorem reservedCalls_eq {m : Memory} {a : ℕ} {data : List UInt8} (h : At m a data) {k n : ℕ}
    (hle : 16 * (k + n) ≤ data.length) : reservedCalls m (a + 16 * k) n =
      some (((List.range' k n).map (regEntry data)).filter fun r => 0 < r.2) := by
  induction n generalizing k with
  | zero => rfl
  | succ n ih =>
    obtain ⟨haddr, hsz⟩ := be64_regEntry h (e := k) (by omega)
    have hnext := @ih (k + 1) (by omega)
    rw [Nat.mul_add, ← Nat.add_assoc, Nat.mul_one] at hnext
    rw [reservedCalls, haddr, Option.bind_some, hsz, Option.bind_some, hnext, Option.map_some,
      List.range'_succ, List.map_cons, List.filter_cons]
    by_cases hpos : 0 < (regEntry data k).2
    · rw [if_pos hpos, if_pos (decide_eq_true hpos)]
    · rw [if_neg hpos, if_neg (decide_eq_true_iff.not.mpr hpos)]

theorem reservedVisitor_reads (m : Memory) : reservedVisitor.Reads reservedItems m where
  beginNode {a name} s h hname := by
    have hmatch := @nodeNameMatch_of_at m a name reservedMemoryName h hname (by decide) (by decide)
    unfold reservedVisitor reservedItems
    dsimp only
    by_cases hd : s.state = 0 ∧ s.currentDepth + 1 = 1
    · rw [if_pos hd, hmatch, Option.map_some]
      simp [hd.1, hd.2]
    · rw [if_neg hd, if_neg fun hand => hd ⟨hand.1, hand.2.1⟩]
  endNode := rfl
  prop {a cur name data} s h hname hdata := by
    have heq := @propNameEq_of_at m a name regName h hname (by decide)
    have hcalls := @reservedCalls_eq m cur data hdata 0 (data.length / 16) (by omega)
    rw [Nat.mul_zero, Nat.add_zero, ← List.range_eq_range'] at hcalls
    unfold reservedVisitor reservedItems
    dsimp only
    by_cases hin : s.state = 1 ∧ s.currentDepth = 2
    · rw [if_pos hin, heq, Option.bind_some]
      by_cases hreg : name = regName
      · rw [if_pos (decide_eq_true hreg), hcalls, if_pos ⟨hin.1, hin.2, hreg⟩]
        rfl
      · rw [if_neg (decide_eq_true_iff.not.mpr hreg), if_neg fun hand => hreg hand.2.2]
    · rw [if_neg hin, if_neg fun hand => hin ⟨hand.1, hand.2.1⟩]
  more := rfl

section Tree

variable {st : ℕ} {d : ℤ} {cs : List (ℕ × ℕ)} {rest : List Item}

/-- Nothing is looked for in a body at the depth `d`. -/
def Quiet (st : ℕ) (d : ℤ) : Prop := st = 0 ∧ 1 ≤ d ∨ st = 1 ∧ 3 ≤ d

theorem Quiet.more (h : Quiet st d) : reservedItems.more ⟨st, d, cs⟩ = true :=
  decide_eq_true (by obtain ⟨h, -⟩ | ⟨h, -⟩ := h <;> dsimp only <;> omega)

/-- The end of a node that is not `reserved-memory`. -/
theorem endNode_eq (hst : st = 1 → 0 < d) :
    reservedItems.endNode ⟨st, d + 1, cs⟩ = ⟨st, d, cs⟩ := by
  have hne : ¬ (st = 1 ∧ d + 1 = 1) := fun hand => by
    have := hst hand.1
    omega
  unfold reservedItems
  dsimp only
  rw [if_neg hne, Int.add_sub_cancel]

mutual

theorem run_quiet (e : DtEntry) (rest : List Item) {st : ℕ} {d : ℤ} (cs : List (ℕ × ℕ))
    (h : Quiet st d) :
    reservedItems.run (e.items ++ rest) ⟨st, d, cs⟩ = reservedItems.run rest ⟨st, d, cs⟩ := by
  cases e with
  | prop p =>
    have hprop : reservedItems.prop p.name p.data ⟨st, d, cs⟩ = .inl ⟨st, d, cs⟩ :=
      if_neg fun hand => by
        obtain ⟨h, -⟩ | ⟨-, h⟩ := h
        · exact absurd (h.symm.trans hand.1) (by decide)
        · exact absurd hand.2.1 (by dsimp only; omega)
    rw [DtEntry.items, List.singleton_append, DtProp.item, ItemVisitor.run_prop h.more, hprop]
    rfl
  | node name body =>
    have hquiet : Quiet st (d + 1) := h.imp (fun h => ⟨h.1, by omega⟩) fun h => ⟨h.1, by omega⟩
    have hbegin : reservedItems.beginNode name ⟨st, d, cs⟩ = ⟨st, d + 1, cs⟩ := by
      have hne : ¬ (st = 0 ∧ d + 1 = 1 ∧ baseName name = reservedMemoryName) := fun hand => by
        obtain ⟨-, h⟩ | ⟨h, -⟩ := h
        · exact absurd hand.2.1 (by omega)
        · exact absurd (h.symm.trans hand.1) (by decide)
      exact congrArg (ReservedScan.mk · (d + 1) cs) (if_neg hne)
    have hend := @endNode_eq st d cs fun hst => by
      obtain ⟨h, -⟩ | ⟨-, h⟩ := h
      · exact absurd (h.symm.trans hst) (by decide)
      · omega
    rw [DtEntry.items, List.cons_append, ItemVisitor.run_beginNode h.more, hbegin,
      List.append_assoc, run_quietBody body _ cs hquiet, List.singleton_append,
      ItemVisitor.run_endNode hquiet.more, hend]

theorem run_quietBody (body : List DtEntry) (rest : List Item) {st : ℕ} {d : ℤ}
    (cs : List (ℕ × ℕ)) (h : Quiet st d) :
    reservedItems.run (DtEntry.itemsBody body ++ rest) ⟨st, d, cs⟩ =
      reservedItems.run rest ⟨st, d, cs⟩ := by
  cases body with
  | nil => rfl
  | cons e es =>
    rw [DtEntry.itemsBody, List.append_assoc, run_quiet e _ cs h]
    exact run_quietBody es rest cs h

end

/-- **The body of a direct subnode of `reserved-memory`.** -/
theorem run_subnode (body : List DtEntry) :
    reservedItems.run (DtEntry.itemsBody body ++ rest) ⟨1, 2, cs⟩ =
      reservedItems.run rest ⟨1, 2, cs ++ body.flatMap DtEntry.ranges⟩ := by
  induction body generalizing cs with
  | nil => rw [List.flatMap_nil, List.append_nil]; rfl
  | cons e es ih =>
    rw [DtEntry.itemsBody, List.append_assoc, List.flatMap_cons, ← List.append_assoc cs]
    cases e with
    | prop p =>
      rw [DtEntry.items, List.singleton_append, DtProp.item, ItemVisitor.run_prop rfl,
        DtEntry.ranges]
      by_cases hreg : p.name = regName
      · have hprop : reservedItems.prop p.name p.data ⟨1, 2, cs⟩ =
            .inl ⟨1, 2, cs ++ regRanges p.data⟩ := if_pos ⟨rfl, rfl, hreg⟩
        rw [hprop, if_pos hreg]
        exact ih
      · have hprop : reservedItems.prop p.name p.data ⟨1, 2, cs⟩ = .inl ⟨1, 2, cs⟩ :=
          if_neg fun hand => hreg hand.2.2
        rw [hprop, if_neg hreg, List.append_nil]
        exact ih
    | node name body =>
      have hquiet : Quiet 1 (2 + 1) := Or.inr ⟨rfl, le_rfl⟩
      have hbegin : reservedItems.beginNode name ⟨1, 2, cs⟩ = ⟨1, 2 + 1, cs⟩ := rfl
      rw [DtEntry.items, List.cons_append, ItemVisitor.run_beginNode rfl, hbegin,
        List.append_assoc, run_quietBody body _ cs hquiet, List.singleton_append,
        ItemVisitor.run_endNode hquiet.more, endNode_eq fun _ => by decide, DtEntry.ranges,
        List.append_nil]
      exact ih

/-- **The body of `reserved-memory`.** -/
theorem run_reserved (body : List DtEntry) :
    reservedItems.run (DtEntry.itemsBody body ++ rest) ⟨1, 1, cs⟩ =
      reservedItems.run rest
        ⟨1, 1, cs ++ (body.flatMap DtEntry.body).flatMap DtEntry.ranges⟩ := by
  induction body generalizing cs with
  | nil => rw [List.flatMap_nil, List.flatMap_nil, List.append_nil]; rfl
  | cons e es ih =>
    rw [DtEntry.itemsBody, List.append_assoc, List.flatMap_cons, List.flatMap_append,
      ← List.append_assoc cs]
    cases e with
    | prop p =>
      have hprop : reservedItems.prop p.name p.data ⟨1, 1, cs⟩ = .inl ⟨1, 1, cs⟩ := rfl
      rw [DtEntry.items, List.singleton_append, DtProp.item, ItemVisitor.run_prop rfl, hprop,
        DtEntry.body, List.flatMap_nil, List.append_nil]
      exact ih
    | node name body =>
      have hbegin : reservedItems.beginNode name ⟨1, 1, cs⟩ = ⟨1, 2, cs⟩ := rfl
      rw [DtEntry.items, List.cons_append, ItemVisitor.run_beginNode rfl, hbegin,
        List.append_assoc, run_subnode, List.singleton_append, ItemVisitor.run_endNode rfl]
      exact ih

/-- **The body of the root.** -/
theorem callsOf_root (body : List DtEntry) :
    callsOf (reservedItems.run (DtEntry.itemsBody body ++ [.endNode, .fin]) ⟨0, 0, []⟩) =
      DtEntry.reservedRanges body := by
  unfold DtEntry.reservedRanges
  induction body with
  | nil => rfl
  | cons e es ih =>
    rw [DtEntry.itemsBody, List.append_assoc, List.find?_cons]
    cases e with
    | prop p =>
      rw [DtEntry.items, List.singleton_append, DtProp.item, ItemVisitor.run_prop rfl]
      exact ih
    | node name body =>
      rw [DtEntry.items, List.cons_append, ItemVisitor.run_beginNode rfl, List.append_assoc,
        DtEntry.isNamed]
      by_cases hname : baseName name = reservedMemoryName
      · have hbegin : reservedItems.beginNode name ⟨0, 0, []⟩ = ⟨1, 1, []⟩ :=
          congrArg (ReservedScan.mk · 1 []) (if_pos ⟨rfl, rfl, hname⟩)
        rw [hbegin, run_reserved, decide_eq_true hname, List.singleton_append,
          ItemVisitor.run_endNode rfl, ItemVisitor.run_of_not_more rfl]
        rfl
      · have hbegin : reservedItems.beginNode name ⟨0, 0, []⟩ = ⟨0, 0 + 1, []⟩ :=
          congrArg (ReservedScan.mk · 1 []) (if_neg fun hand => hname hand.2.2)
        have hquiet : Quiet 0 (0 + 1) := Or.inl ⟨rfl, le_rfl⟩
        rw [hbegin, run_quietBody body _ [] hquiet, decide_eq_false hname, List.singleton_append,
          ItemVisitor.run_endNode hquiet.more, endNode_eq fun h => absurd h (by decide)]
        exact ih

/-- **The walk over a tree.** -/
theorem callsOf_tree (name : List UInt8) (body : List DtEntry) :
    callsOf (reservedItems.run ((DtEntry.node name body).items ++ [.fin]) ⟨0, -1, []⟩) =
      DtEntry.reservedRanges body := by
  have hbegin : reservedItems.beginNode name ⟨0, -1, []⟩ = ⟨0, 0, []⟩ := by
    have hne : ¬ ((0 : ℕ) = 0 ∧ (-1 : ℤ) + 1 = 1 ∧ baseName name = reservedMemoryName) :=
      fun hand => absurd hand.2.1 (by decide)
    exact congrArg (ReservedScan.mk · 0 []) (if_neg hne)
  rw [DtEntry.items, List.cons_append, ItemVisitor.run_beginNode rfl, hbegin, List.append_assoc]
  exact callsOf_root body

end Tree

/-! ## The result -/

section Result

variable {m : Memory} {gDtbAddr fuel : ℕ} {blob : FdtBlob} {name : List UInt8}
  {body : List DtEntry}

/-- **Every reserved range is reported**, in document order and once, and nothing else is: the pairs
in the `reg` properties of the direct subnodes of the first `reserved-memory` below the root, but
for those of size zero.  Properties and subnodes may stand in any order. -/
theorem dtbWalkReservedMemory_eq (hblock : blob.Block gDtbAddr) (hm : blob.Located gDtbAddr m)
    (htree : items blob.strings 0 blob.tokens = (DtEntry.node name body).items ++ [.fin])
    (hfuel : blob.structBlock.length < fuel) :
    dtbWalkReservedMemory m gDtbAddr fuel = some (DtEntry.reservedRanges body) := by
  have hfin : .fin ∈ items blob.strings 0 blob.tokens := by
    rw [htree]
    exact List.mem_append_right _ List.mem_cons_self
  rw [dtbWalkReservedMemory, (reservedVisitor_reads m).walk hblock hm hfin hfuel, htree,
    Option.map_some, callsOf_tree]

/-- A node with two `reg` properties, one behind a subnode; the first has an empty entry. -/
def firmware : FdtBlob where
  header := ⟨fdtHeaderMagic, 212, 40, 208, 40, 17, 16, 0, 4, 168⟩
  tokens := [.beginNode [], .beginNode reservedMemoryName, .beginNode [0x61],
    .prop 0 [0, 0, 0, 0, 0x80, 0, 0, 0, 0, 0, 0, 0, 0, 0, 0x10, 0,
      0, 0, 0, 0, 0, 0, 0, 0, 0, 0, 0, 0, 0, 0, 0, 0], .nop, .beginNode [0x62],
    .prop 0 [0, 0, 0, 0, 0x80, 0, 0, 0, 0, 0, 0, 0, 0, 0, 0x10, 0], .endNode,
    .prop 0 [0, 0, 0, 0, 0x90, 0, 0, 0, 0, 0, 0, 0, 0, 0, 0x20, 0], .endNode, .endNode, .endNode,
    .fin]
  strings := regName ++ [0]

/-- The root of `firmware`: below `reserved-memory` a node with two properties and, between them, a
node of its own. -/
def firmwareBody : List DtEntry :=
  [.node reservedMemoryName [.node [0x61]
    [.prop ⟨48, regName, [0, 0, 0, 0, 0x80, 0, 0, 0, 0, 0, 0, 0, 0, 0, 0x10, 0,
      0, 0, 0, 0, 0, 0, 0, 0, 0, 0, 0, 0, 0, 0, 0, 0]⟩,
    .node [0x62]
      [.prop ⟨104, regName, [0, 0, 0, 0, 0x80, 0, 0, 0, 0, 0, 0, 0, 0, 0, 0x10, 0]⟩],
    .prop ⟨136, regName, [0, 0, 0, 0, 0x90, 0, 0, 0, 0, 0, 0, 0, 0, 0, 0x20, 0]⟩]]]

theorem firmware_block : firmware.Block 4096 where
  base_ne := by decide
  magic := rfl
  words := by decide
  size := by decide +kernel
  aligned := by decide
  fits := by decide +kernel
  tokens := by decide

theorem dtbWalkReservedMemory_of_firmware :
    dtbWalkReservedMemory (ofList 4096 firmware.bytes) 4096 169 =
      some [(0x80000000, 0x1000), (0x90000000, 0x2000)] :=
  @dtbWalkReservedMemory_eq _ 4096 169 firmware [] firmwareBody firmware_block
    (FdtBlob.located_bytes rfl (by decide +kernel)) rfl (by decide +kernel)

end Result

end Boot
end OscKernel
