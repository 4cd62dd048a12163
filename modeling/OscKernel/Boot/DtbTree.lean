import OscKernel.Boot.Dtb

/-!
# Device trees (`dtb.c`)

What a structure block says is a tree.  `_dtb_getprop` compares the names at the depth of the path
only, and looks at the properties of everything below a node that it has found.

* `DtNode.lookup`: the property that a path means.
* `itemLoop_tree`: the property that the walk finds (`DtNode.firstFound`).
* `dtbGetprop_iff`: when the two are the same.

## What the walk forgets

The walk keeps one number besides the depth: `matched_depth`, which is negative until a node at the
depth of the path has the name of the last component.  Neither the names on the way to this node nor
what the walk went past on its way are kept.  Two things follow.  A node in another branch is taken
for the one that the path means if it stands at the right depth under the right name.  And a
property is taken not only from the node that was found but from everything below it.

`LastMatches` says this about the way from the root to a node (`Chain`), and `depthOf` is the
variable as a function of that way, which is the invariant of the walk: it is the same at the end of
a node as it was at its beginning, so that the induction is over the tree.

## When the two agree

The walk and the path disagree when a property that only the walk accepts comes first in document
order.  `Unambiguous` excludes that and no more: such a property may stand behind one that the path
does mean.  The other condition is about the length that is returned, an `int`, which a property of
`2^31` bytes or more does not fit.
-/

namespace OscKernel
namespace Boot

open Bytes

/-- A property, with the place of its data in the structure block. -/
structure DtProp where
  pos : ℕ
  name : List UInt8
  data : List UInt8

/-- A node of the tree. -/
inductive DtNode where
  | mk (name : List UInt8) (props : List DtProp) (children : List DtNode)

/-- The property as an item. -/
def DtProp.item (p : DtProp) : Item := .prop p.pos p.name p.data

/-- The names on the way from the root to a node; that of the root is not among them. -/
abbrev Chain := List (List UInt8)

namespace DtNode

/-- The name of the node, with its unit address. -/
def name : DtNode → List UInt8
  | .mk name _ _ => name

/-- The properties of the node. -/
def props : DtNode → List DtProp
  | .mk _ props _ => props

mutual

/-- The items of a tree. -/
def items : DtNode → List Item
  | .mk name props children =>
      .beginNode name :: (props.map DtProp.item ++ (itemsForest children ++ [.endNode]))

/-- The items of several nodes. -/
def itemsForest : List DtNode → List Item
  | [] => []
  | n :: ns => n.items ++ itemsForest ns

end

mutual

/-- The nodes of a tree in document order, each with the way to it. -/
def walk (chain : Chain) : DtNode → List (Chain × DtNode)
  | .mk name props children => (chain, .mk name props children) :: walkForest chain children

/-- Several nodes and those below them, each with its way from the root. -/
def walkForest (chain : Chain) : List DtNode → List (Chain × DtNode)
  | [] => []
  | n :: ns => n.walk (chain ++ [n.name]) ++ walkForest chain ns

end

/-- The property `propName` of the first node in document order that the path leads to and that
has the property. -/
def lookup (comps : List (List UInt8)) (propName : List UInt8) (root : DtNode) : Option DtProp :=
  ((root.walk []).filter fun n => n.1.map baseName = comps).findSome? fun n =>
    n.2.props.find? fun p => p.name = propName

/-- The properties of nodes, in document order. -/
def occurrences (nodes : List (Chain × DtNode)) : List (Chain × DtProp) :=
  nodes.flatMap fun n => n.2.props.map fun p => (n.1, p)

end DtNode

/-! ## What the walk finds -/

/-- The name at the depth of the path is the last component. -/
def LastMatches (comps : List (List UInt8)) (chain : Chain) : Prop :=
  comps.length ≤ chain.length ∧
    (chain.take comps.length).getLast?.map baseName = comps.getLast?

instance (comps : List (List UInt8)) (chain : Chain) : Decidable (LastMatches comps chain) :=
  inferInstanceAs (Decidable (_ ∧ _))

/-- `matched_depth` in a node. -/
def depthOf (comps : List (List UInt8)) (chain : Chain) : ℤ :=
  if LastMatches comps chain then comps.length else -1

/-- The first of the properties that is in a node at the depth of the path whose name is the last
component, or below such a node. -/
def firstFound (comps : List (List UInt8)) (propName : List UInt8)
    (l : List (Chain × DtProp)) : Option (Chain × DtProp) :=
  l.find? fun o => decide (o.2.name = propName ∧ LastMatches comps o.1)

variable {comps : List (List UInt8)} {propName name : List UInt8} {chain : Chain}

theorem lastMatches_append (h : comps.length ≤ chain.length) :
    LastMatches comps (chain ++ [name]) ↔ LastMatches comps chain := by
  unfold LastMatches
  rw [List.take_append_of_le_length h, List.length_append]
  exact and_congr_left fun _ => iff_of_true (Nat.le_succ_of_le h) h

theorem lastMatches_append_self (h : comps.length = chain.length + 1) :
    LastMatches comps (chain ++ [name]) ↔ comps[chain.length]? = some (baseName name) := by
  have hlen : (chain ++ [name]).length = comps.length := by rw [List.length_append, h]; rfl
  unfold LastMatches
  rw [List.take_of_length_le hlen.le, List.getLast?_append, List.getLast?_eq_getElem? (l := comps),
    h, hlen, h]
  simp [eq_comm]

theorem not_lastMatches (h : chain.length < comps.length) : ¬ LastMatches comps chain :=
  fun hm => Nat.not_le.mpr h hm.1

theorem depthOf_nonneg : 0 ≤ depthOf comps chain ↔ LastMatches comps chain := by
  unfold depthOf
  split_ifs with h
  · exact iff_of_true (Int.natCast_nonneg _) h
  · exact iff_of_false (by decide) h

/-- **The beginning of a node.** -/
theorem itemEnter_depthOf : itemEnter comps name (chain.length + 1) (depthOf comps chain) =
    depthOf comps (chain ++ [name]) := by
  unfold itemEnter
  by_cases hm : LastMatches comps chain
  · rw [if_neg (not_lt.mpr (depthOf_nonneg.mpr hm))]
    unfold depthOf
    rw [if_pos hm, if_pos ((lastMatches_append hm.1).mpr hm)]
  · have hneg : depthOf comps chain = -1 := if_neg hm
    have hne : ¬ (chain.length : ℤ) + 1 = 0 := by omega
    rw [hneg, if_pos (by decide), if_neg hne, Int.add_sub_cancel, Int.toNat_natCast]
    unfold depthOf
    rcases Nat.lt_trichotomy comps.length (chain.length + 1) with h | h | h
    · have hm' := mt (@lastMatches_append comps name chain (Nat.lt_succ_iff.mp h)).mp hm
      rw [if_neg hm', if_neg fun hand => absurd hand.1 (by omega)]
    · by_cases hbase : comps[chain.length]? = some (baseName name)
      · rw [if_pos ⟨by omega, hbase⟩, if_pos ((lastMatches_append_self h).mpr hbase), h]
        rfl
      · rw [if_neg fun hand => hbase hand.2, if_neg (mt (lastMatches_append_self h).mp hbase)]
    · have hm' : ¬ LastMatches comps (chain ++ [name]) :=
        not_lastMatches (by rw [List.length_append]; exact h)
      rw [if_neg hm', if_neg fun hand => absurd hand.1 (by omega)]

/-- **The end of a node.** -/
theorem leave_depthOf : (if depthOf comps (chain ++ [name]) = chain.length + 1 then -1
    else depthOf comps (chain ++ [name])) = depthOf comps chain := by
  unfold depthOf
  by_cases hle : comps.length ≤ chain.length
  · simp only [lastMatches_append hle]
    split_ifs with hm h
    · omega
    · rfl
    · rfl
    · rfl
  · rw [if_neg (not_lastMatches (Nat.not_le.mp hle))]
    by_cases hm : LastMatches comps (chain ++ [name])
    · have hlen : comps.length = chain.length + 1 := by
        have hm₁ := hm.1
        rw [List.length_append] at hm₁
        exact Nat.le_antisymm hm₁ (Nat.not_le.mp hle)
      rw [if_pos hm, if_pos (by rw [hlen]; rfl)]
    · rw [if_neg hm, if_neg (by omega)]

theorem firstFound_append (l l' : List (Chain × DtProp)) : firstFound comps propName (l ++ l') =
    (firstFound comps propName l).or (firstFound comps propName l') := List.find?_append

/-- What the walk returns of a property. -/
def DtProp.place (p : DtProp) : ℕ × List UInt8 := (p.pos, p.data)

/-- The properties of a node. -/
theorem itemLoop_props (ps : List DtProp) (rest : List Item) (cd : ℤ) :
    itemLoop comps propName (ps.map DtProp.item ++ rest) cd (depthOf comps chain) =
      ((firstFound comps propName (ps.map fun p => (chain, p))).map fun o => o.2.place).or
        (itemLoop comps propName rest cd (depthOf comps chain)) := by
  induction ps with
  | nil => rfl
  | cons p ps ih =>
    rw [List.map_cons, List.cons_append, DtProp.item, itemLoop, List.map_cons, firstFound,
      List.find?_cons]
    by_cases h : p.name = propName ∧ LastMatches comps chain
    · rw [if_pos ⟨depthOf_nonneg.mpr h.2, h.1⟩, decide_eq_true h]
      rfl
    · rw [if_neg fun hand => h ⟨hand.2, depthOf_nonneg.mp hand.1⟩, decide_eq_false h]
      exact ih

mutual

/-- A node and everything below it, without its beginning. -/
theorem itemLoop_node (n : DtNode) (chain : Chain) (rest : List Item) :
    itemLoop comps propName (n.items ++ rest) chain.length (depthOf comps chain) =
      ((firstFound comps propName (DtNode.occurrences (n.walk (chain ++ [n.name])))).map
        fun o => o.2.place).or
          (itemLoop comps propName rest chain.length (depthOf comps chain)) := by
  cases n with
  | mk name props children =>
    have hlen : ((chain ++ [name]).length : ℤ) = chain.length + 1 := by simp
    have hforest := itemLoop_forest children (chain ++ [name]) (.endNode :: rest)
    rw [DtNode.items, List.cons_append, itemLoop, itemEnter_depthOf, List.append_assoc,
      itemLoop_props, List.append_assoc, ← hlen]
    have hend : [Item.endNode] ++ rest = .endNode :: rest := rfl
    rw [hend, hforest, itemLoop, hlen, Int.add_sub_cancel, leave_depthOf, ← Option.or_assoc,
      ← Option.map_or, ← firstFound_append]
    rfl

theorem itemLoop_forest (ns : List DtNode) (chain : Chain) (rest : List Item) :
    itemLoop comps propName (DtNode.itemsForest ns ++ rest) chain.length (depthOf comps chain) =
      ((firstFound comps propName (DtNode.occurrences (DtNode.walkForest chain ns))).map
        fun o => o.2.place).or
          (itemLoop comps propName rest chain.length (depthOf comps chain)) := by
  cases ns with
  | nil => rfl
  | cons n ns =>
    have hforest := itemLoop_forest ns chain rest
    rw [DtNode.itemsForest, List.append_assoc, itemLoop_node n chain, hforest, ← Option.or_assoc,
      ← Option.map_or, ← firstFound_append, DtNode.walkForest, DtNode.occurrences,
      DtNode.occurrences, DtNode.occurrences, List.flatMap_append]

end

/-- **The walk over a tree.** -/
theorem itemLoop_tree (root : DtNode) :
    itemLoop comps propName (root.items ++ [.fin]) (-1) (-1) =
      (firstFound comps propName (DtNode.occurrences (root.walk []))).map fun o => o.2.place := by
  cases root with
  | mk name props children =>
    have hroot : itemEnter comps name 0 (-1) = depthOf comps [] := by
      cases comps <;> rfl
    have hforest := @itemLoop_forest comps propName children [] [.endNode, .fin]
    rw [DtNode.items, List.cons_append, itemLoop]
    have hzero : (-1 : ℤ) + 1 = 0 := rfl
    rw [hzero, hroot, List.append_assoc, itemLoop_props, List.append_assoc]
    have hend : [Item.endNode] ++ [.fin] = [.endNode, .fin] := rfl
    have hlen : (([] : Chain).length : ℤ) = 0 := rfl
    rw [hlen] at hforest
    rw [hend, hforest, ← Option.or_assoc, ← Option.map_or, ← firstFound_append, itemLoop, itemLoop,
      Option.or_none]
    rfl

/-! ## What the path means -/

section Meaning

variable {root : DtNode}

/-- The property is one that the path means. -/
def Meant (comps : List (List UInt8)) (propName : List UInt8) (o : Chain × DtProp) : Prop :=
  o.2.name = propName ∧ o.1.map baseName = comps

instance (comps : List (List UInt8)) (propName : List UInt8) (o : Chain × DtProp) :
    Decidable (Meant comps propName o) := inferInstanceAs (Decidable (_ ∧ _))

theorem lastMatches_of_map (h : chain.map baseName = comps) : LastMatches comps chain := by
  have hlen : comps.length = chain.length := by rw [← h, List.length_map]
  refine ⟨hlen.le, ?_⟩
  rw [List.take_of_length_le hlen.ge, ← h, List.getLast?_map]

/-- The property that the path means is the first one in document order. -/
theorem lookup_eq : root.lookup comps propName =
    ((DtNode.occurrences (root.walk [])).find? fun o => decide (Meant comps propName o)).map
      Prod.snd := by
  rw [DtNode.lookup, DtNode.occurrences]
  induction root.walk [] with
  | nil => rfl
  | cons n nodes ih =>
    have hprops : (n.2.props.map fun p => (n.1, p)).find?
        (fun o => decide (Meant comps propName o)) =
        (n.2.props.find? fun p => decide (p.name = propName ∧ n.1.map baseName = comps)).map
          fun p => (n.1, p) := List.find?_map
    rw [List.flatMap_cons, List.find?_append, hprops, Option.map_or, Option.map_map, ← ih,
      List.filter_cons]
    by_cases hchain : n.1.map baseName = comps
    · simp [hchain, List.findSome?_cons, Function.comp_def]
      cases n.2.props.find? fun p => decide (p.name = propName) <;> rfl
    · have hnone : (n.2.props.find? fun _ => false) = none :=
        List.find?_eq_none.mpr fun _ _ => Bool.false_ne_true
      simp [hchain, hnone]

theorem find?_eq_find?_iff {α : Type*} {A B : α → Prop} [DecidablePred A] [DecidablePred B]
    (hBA : ∀ o, B o → A o) (l : List α) :
    (l.find? fun o => decide (A o)) = (l.find? fun o => decide (B o)) ↔
      ∀ pre o post, l = pre ++ o :: post → A o → ¬ B o → ∃ r ∈ pre, B r := by
  induction l with
  | nil => exact iff_of_true rfl fun pre o post h => absurd h.symm (by simp)
  | cons x l ih =>
    rw [List.find?_cons, List.find?_cons]
    by_cases hB : B x
    · rw [decide_eq_true hB, decide_eq_true (hBA x hB)]
      refine iff_of_true rfl fun pre o post hl hA hnB => ?_
      cases pre with
      | nil =>
        cases hl
        exact absurd hB hnB
      | cons y pre =>
        cases hl
        exact ⟨x, List.mem_cons_self, hB⟩
    · rw [decide_eq_false hB]
      by_cases hA : A x
      · rw [decide_eq_true hA]
        refine iff_of_false (fun h => ?_) fun h => ?_
        · have hfind : (l.find? fun o => decide (B o)) = some x := h.symm
          exact hB (of_decide_eq_true (List.find?_some hfind :))
        · obtain ⟨r, hr, -⟩ := h [] x l rfl hA hB
          cases hr
      · rw [decide_eq_false hA]
        refine ih.trans ⟨fun h pre o post hl hAo hnB => ?_, fun h pre o post hl hAo hnB => ?_⟩
        · cases pre with
          | nil =>
            cases hl
            exact absurd hAo hA
          | cons y pre =>
            cases hl
            obtain ⟨r, hr, hBr⟩ := h pre o post rfl hAo hnB
            exact ⟨r, List.mem_cons_of_mem _ hr, hBr⟩
        · obtain ⟨r, hr, hBr⟩ := h (x :: pre) o post (by rw [hl]; rfl) hAo hnB
          rcases List.mem_cons.mp hr with rfl | hr
          · exact absurd hBr hB
          · exact ⟨r, hr, hBr⟩

end Meaning

/-! ## Where the properties are -/

section Place

/-- The place of a property. -/
def posOf : Item → Option ℕ
  | .prop pos _ _ => some pos
  | .beginNode _ | .endNode | .fin => none

/-- A property lies after the ones before it. -/
theorem posOf_items (strings : List UInt8) (off : ℕ) (ts : List Token) :
    ((items strings off ts).filterMap posOf).Pairwise (· < ·) ∧
      ∀ pos ∈ (items strings off ts).filterMap posOf, off + 12 ≤ pos := by
  induction ts generalizing off with
  | nil => exact ⟨List.Pairwise.nil, nofun⟩
  | cons t ts ih =>
    obtain ⟨hpair, hle⟩ := ih (off + t.bytes.length)
    have hle' : ∀ pos ∈ (items strings (off + t.bytes.length) ts).filterMap posOf, off + 12 ≤ pos :=
      fun pos hpos => by have := hle pos hpos; omega
    cases t with
    | prop nameoff data =>
      have hlen := prop_length nameoff data
      refine ⟨List.pairwise_cons.mpr ⟨fun pos hpos => ?_, hpair⟩, fun pos hpos => ?_⟩
      · have := hle pos hpos
        omega
      · rcases List.mem_cons.mp hpos with rfl | hpos
        · exact Nat.le_refl _
        · exact hle' pos hpos
    | beginNode _ | endNode | nop | fin => exact ⟨hpair, hle'⟩

mutual

theorem posOf_node (n : DtNode) (chain : Chain) :
    n.items.filterMap posOf = (DtNode.occurrences (n.walk chain)).map fun o => o.2.pos := by
  cases n with
  | mk name props children =>
    have hprops : (props.map DtProp.item).filterMap posOf =
        (props.map fun p => (chain, p)).map fun o => o.2.pos := by
      rw [List.filterMap_map, List.map_map]
      exact congrFun List.filterMap_eq_map' props
    have hend : posOf .endNode = none := rfl
    rw [DtNode.items, List.filterMap_cons_none rfl, List.filterMap_append, List.filterMap_append,
      hprops, posOf_forest children chain, List.filterMap_cons_none hend, List.filterMap_nil,
      List.append_nil, DtNode.walk, DtNode.occurrences, DtNode.occurrences, List.flatMap_cons,
      List.map_append]
    rfl

theorem posOf_forest (ns : List DtNode) (chain : Chain) :
    (DtNode.itemsForest ns).filterMap posOf =
      (DtNode.occurrences (DtNode.walkForest chain ns)).map fun o => o.2.pos := by
  cases ns with
  | nil => rfl
  | cons n ns =>
    rw [DtNode.itemsForest, List.filterMap_append, posOf_node n (chain ++ [n.name]),
      posOf_forest ns chain, DtNode.walkForest, DtNode.occurrences, DtNode.occurrences,
      DtNode.occurrences, List.flatMap_append, List.map_append]

end

/-- Properties at one place are the same. -/
theorem occurrences_inj {strings : List UInt8} {off : ℕ} {ts : List Token} {root : DtNode}
    (h : items strings off ts = root.items ++ [.fin]) {o o' : Chain × DtProp}
    (ho : o ∈ DtNode.occurrences (root.walk [])) (ho' : o' ∈ DtNode.occurrences (root.walk []))
    (heq : o.2.pos = o'.2.pos) : o = o' := by
  have hpos : (root.items ++ [Item.fin]).filterMap posOf =
      (DtNode.occurrences (root.walk [])).map fun o => o.2.pos := by
    rw [List.filterMap_append, posOf_node root []]
    exact List.append_nil _
  have hpair := (posOf_items strings off ts).1
  rw [h, hpos] at hpair
  have hnodup : ((DtNode.occurrences (root.walk [])).map fun o => o.2.pos).Nodup :=
    hpair.imp fun hlt => ne_of_lt hlt
  exact List.inj_on_of_nodup_map hnodup ho ho' heq

end Place

/-! ## Blobs -/

/-- `struct fdt_header`. -/
structure FdtHeader where
  magic : ℕ
  totalsize : ℕ
  offDtStruct : ℕ
  offDtStrings : ℕ
  offMemRsvmap : ℕ
  version : ℕ
  lastCompVersion : ℕ
  bootCpuidPhys : ℕ
  sizeDtStrings : ℕ
  sizeDtStruct : ℕ

/-- The words of the header in their order. -/
def FdtHeader.words (h : FdtHeader) : List ℕ :=
  [h.magic, h.totalsize, h.offDtStruct, h.offDtStrings, h.offMemRsvmap, h.version,
    h.lastCompVersion, h.bootCpuidPhys, h.sizeDtStrings, h.sizeDtStruct]

/-- A flattened device tree: its header, the tokens of its structure block, and its strings
block. -/
structure FdtBlob where
  header : FdtHeader
  tokens : List Token
  strings : List UInt8

namespace FdtBlob

variable (blob : FdtBlob) (base : ℕ)

/-- The bytes of the structure block. -/
def structBlock : List UInt8 := blob.tokens.flatMap Token.bytes

/-- The blob at `base` says `root`. -/
structure WellFormed (root : DtNode) : Prop where
  base_ne : base ≠ 0
  magic : blob.header.magic = fdtHeaderMagic
  words : ∀ w ∈ blob.header.words, w < 2 ^ 32
  size : blob.header.sizeDtStruct = blob.structBlock.length
  aligned : 4 ∣ base + blob.header.offDtStruct
  fits : base + blob.header.offDtStruct + blob.structBlock.length ≤ 2 ^ 64
  tokens : ∀ t ∈ blob.tokens, t.WellFormed blob.strings
  tree : items blob.strings 0 blob.tokens = root.items ++ [.fin]

/-- The blob at `base` has a header and a structure block that can be read, whatever they say. -/
structure Block : Prop where
  base_ne : base ≠ 0
  magic : blob.header.magic = fdtHeaderMagic
  words : ∀ w ∈ blob.header.words, w < 2 ^ 32
  size : blob.header.sizeDtStruct = blob.structBlock.length
  aligned : 4 ∣ base + blob.header.offDtStruct
  fits : base + blob.header.offDtStruct + blob.structBlock.length ≤ 2 ^ 64
  tokens : ∀ t ∈ blob.tokens, t.WellFormed blob.strings

/-- The blob is in the memory. -/
structure Located (m : Memory) : Prop where
  header : At m base (blob.header.words.flatMap be32Bytes)
  tokens : At m (base + blob.header.offDtStruct) blob.structBlock
  strings : At m (base + blob.header.offDtStrings) blob.strings

/-- The header, the structure block and the strings block, one after the other. -/
def bytes : List UInt8 :=
  blob.header.words.flatMap be32Bytes ++ (blob.structBlock ++ blob.strings)

/-- Every token has bytes. -/
theorem length_tokens_le : blob.tokens.length ≤ blob.structBlock.length := by
  unfold structBlock
  generalize blob.tokens = ts
  induction ts with
  | nil => exact Nat.le_refl 0
  | cons t ts ih =>
    have := four_le_token_length t
    rw [List.flatMap_cons, List.length_append, List.length_cons]
    omega

variable {blob base} {m : Memory} {root : DtNode}

theorem WellFormed.block (h : blob.WellFormed base root) : blob.Block base :=
  ⟨h.base_ne, h.magic, h.words, h.size, h.aligned, h.fits, h.tokens⟩

theorem located_bytes (hstruct : blob.header.offDtStruct = 40)
    (hstrings : blob.header.offDtStrings = 40 + blob.structBlock.length) :
    blob.Located base (ofList base blob.bytes) := by
  obtain ⟨hheader, hrest⟩ := at_append.mp (at_ofList base blob.bytes)
  obtain ⟨htokens, hstr⟩ := at_append.mp hrest
  refine ⟨hheader, ?_, ?_⟩
  · rw [hstruct]
    exact htokens
  · rw [hstrings, ← Nat.add_assoc]
    exact hstr

/-- A word of the header. -/
theorem Located.word (h : blob.Located base m) (hwf : blob.Block base) {i w : ℕ}
    (hw : blob.header.words[i]? = some w) : be32 m (base + 4 * i) = some w := by
  have hlt := hwf.words w (List.mem_of_getElem? hw)
  refine be32_of_at ?_ hlt
  have hat := h.header
  generalize blob.header.words = ws at hat hw
  clear h hwf hlt
  induction ws generalizing base i with
  | nil => cases hw
  | cons x ws ih =>
    rw [List.flatMap_cons, at_append] at hat
    cases i with
    | zero =>
      cases hw
      exact hat.1
    | succ i =>
      have hnext : base + 4 * (i + 1) = base + 4 + 4 * i := by ring
      rw [hnext]
      exact ih hat.2 hw

end FdtBlob

/-! ## The result -/

section Result

variable {m : Memory} {base fuel : ℕ} {blob : FdtBlob} {root : DtNode} {lenp : ℤ}

/-- **What `_dtb_getprop` returns.** -/
theorem dtbGetprop_eq (hwf : blob.WellFormed base root) (hm : blob.Located base m)
    (hcomps : ∀ c ∈ comps, IsComponent c) (hprop : 0 ∉ propName)
    (hfuel : blob.structBlock.length < fuel) :
    dtbGetprop m base (pathOf comps) propName lenp fuel =
      some (found (base + blob.header.offDtStruct)
        ((firstFound comps propName (DtNode.occurrences (root.walk []))).map
          fun o => o.2.place)) := by
  have hmagic : be32 m base = some blob.header.magic := hm.word hwf.block (i := 0) rfl
  have hstruct : be32 m (base + 8) = some blob.header.offDtStruct := hm.word hwf.block (i := 2) rfl
  have hstrings : be32 m (base + 12) = some blob.header.offDtStrings :=
    hm.word hwf.block (i := 3) rfl
  have hsize : be32 m (base + 36) = some blob.header.sizeDtStruct := hm.word hwf.block (i := 9) rfl
  have htokens := Nat.lt_of_le_of_lt blob.length_tokens_le hfuel
  have hfin : .fin ∈ items blob.strings 0 blob.tokens := by
    rw [hwf.tree]
    exact List.mem_append_right _ List.mem_cons_self
  have hloop : dtbLoop m (base + blob.header.offDtStruct + 0 + blob.structBlock.length) _
      (pathOf comps) propName fuel fuel ⟨base + blob.header.offDtStruct + 0, -1, -1⟩ = _ :=
    dtbLoop_tokens hcomps hprop hm.strings hwf.tokens hfin hm.tokens hwf.aligned hwf.fits hfuel.le
      htokens
  rw [hwf.tree, itemLoop_tree] at hloop
  rw [dtbGetprop, if_neg hwf.base_ne, hmagic, Option.bind_some, if_neg (not_not.mpr hwf.magic),
    hsize, Option.bind_some, hstruct, Option.bind_some, hstrings, Option.bind_some, hwf.size]
  exact hloop

/-- The value and the length of the property that the path means, and `(NULL, 0)` when there is
none. -/
def expected (dtStruct : ℕ) (r : Option DtProp) : ℕ × ℤ :=
  r.elim (0, 0) fun p => (dtStruct + p.pos, p.data.length)

/-- A property that the search accepts and the path does not mean comes after one that the path
means. -/
def Unambiguous (comps : List (List UInt8)) (propName : List UInt8) (root : DtNode) : Prop :=
  ∀ pre o post, DtNode.occurrences (root.walk []) = pre ++ o :: post →
    o.2.name = propName → LastMatches comps o.1 → o.1.map baseName ≠ comps →
      ∃ r ∈ pre, Meant comps propName r

theorem unambiguous_iff : Unambiguous comps propName root ↔
    firstFound comps propName (DtNode.occurrences (root.walk [])) =
      (DtNode.occurrences (root.walk [])).find? fun o => decide (Meant comps propName o) := by
  have hiff := find?_eq_find?_iff (A := fun o : Chain × DtProp => o.2.name = propName ∧
    LastMatches comps o.1) (B := Meant comps propName)
    (fun o h => ⟨h.1, lastMatches_of_map h.2⟩) (DtNode.occurrences (root.walk []))
  refine Iff.trans ⟨fun h pre o post hl hA hB => ?_, fun h pre o post hl hname hlast hne => ?_⟩
    hiff.symm
  · exact h pre o post hl hA.1 hA.2 fun heq => hB ⟨hA.1, heq⟩
  · exact h pre o post hl ⟨hname, hlast⟩ fun hB => hne hB.2

theorem toInt32_eq_iff (n : ℕ) : toInt32 n = n ↔ n < 2 ^ 31 := by
  unfold toInt32 Int.bmod
  dsimp only
  split_ifs <;> omega

/-- **When `_dtb_getprop` returns what the path means**, for every well-formed tree and every path
of components: exactly when no property that the walk accepts and the path does not mean comes
before all those that it does mean, and the length of the property is one of `int`.  In any case the
walk comes to an end. -/
theorem dtbGetprop_iff (hwf : blob.WellFormed base root) (hm : blob.Located base m)
    (hcomps : ∀ c ∈ comps, IsComponent c) (hprop : 0 ∉ propName)
    (hfuel : blob.structBlock.length < fuel) :
    ∃ r, dtbGetprop m base (pathOf comps) propName lenp fuel = some r ∧
      (r = expected (base + blob.header.offDtStruct) (root.lookup comps propName) ↔
        Unambiguous comps propName root ∧
          ∀ p ∈ root.lookup comps propName, p.data.length < 2 ^ 31) := by
  refine ⟨_, dtbGetprop_eq hwf hm hcomps hprop hfuel, ?_⟩
  rw [unambiguous_iff, lookup_eq]
  have hpos : base + blob.header.offDtStruct ≠ 0 := fun h0 =>
    hwf.base_ne (Nat.eq_zero_of_add_eq_zero_right h0)
  have hne : ∀ pos, base + blob.header.offDtStruct + pos ≠ 0 := fun pos h =>
    hpos (Nat.eq_zero_of_add_eq_zero_right h)
  generalize hl : DtNode.occurrences (root.walk []) = l
  cases hfirst : firstFound comps propName l with
  | none =>
    cases hmeant : l.find? fun o => decide (Meant comps propName o) with
    | none => exact iff_of_true rfl ⟨rfl, nofun⟩
    | some o' =>
      refine iff_of_false (fun h => ?_) fun h => Option.some_ne_none o' h.1.symm
      have hzero : 0 = base + blob.header.offDtStruct + o'.2.pos := congrArg Prod.fst h
      exact hne _ hzero.symm
  | some o =>
    cases hmeant : l.find? fun o => decide (Meant comps propName o) with
    | none =>
      refine iff_of_false (fun h => ?_) fun h => Option.some_ne_none o h.1
      have hzero : base + blob.header.offDtStruct + o.2.pos = 0 := congrArg Prod.fst h
      exact hne _ hzero
    | some o' =>
      simp only [found, expected, DtProp.place, Option.map_some, Option.elim_some, Prod.mk.injEq,
        Nat.add_left_cancel_iff, Option.some.injEq, Option.mem_some_iff, forall_eq']
      constructor
      · rintro ⟨hplace, hlen⟩
        have hmem : o ∈ l := List.mem_of_find?_eq_some hfirst
        have hmem' : o' ∈ l := List.mem_of_find?_eq_some hmeant
        rw [← hl] at hmem hmem'
        obtain rfl := occurrences_inj hwf.tree hmem hmem' hplace
        exact ⟨rfl, (toInt32_eq_iff _).mp hlen⟩
      · rintro ⟨rfl, hlen⟩
        exact ⟨rfl, (toInt32_eq_iff _).mpr hlen⟩

/-- The tree of `/x/b@1`, which has the property `p`, with a `NOP` between its tokens. -/
def nested : FdtBlob where
  header := ⟨fdtHeaderMagic, 102, 40, 100, 40, 17, 16, 0, 2, 60⟩
  tokens := [.beginNode [], .beginNode [0x78], .nop, .beginNode [0x62, atSign, 0x31],
    .prop 0 [1, 2, 3, 4], .endNode, .endNode, .endNode, .fin]
  strings := [0x70, 0]

/-- The tree of `nested`: the property is below `/x/b@1`. -/
def nestedRoot : DtNode :=
  .mk [] [] [.mk [0x78] [] [.mk [0x62, atSign, 0x31] [⟨40, [0x70], [1, 2, 3, 4]⟩] []]]

theorem nested_wellFormed : nested.WellFormed 4096 nestedRoot where
  base_ne := by decide
  magic := rfl
  words := by decide
  size := by decide
  aligned := by decide
  fits := by decide
  tokens := by decide
  tree := rfl

theorem nested_located : nested.Located 4096 (ofList 4096 nested.bytes) :=
  FdtBlob.located_bytes rfl (by decide)

/-- `/x/b` is found. -/
theorem dtbGetprop_of_nested :
    dtbGetprop (ofList 4096 nested.bytes) 4096 (pathOf [[0x78], [0x62]]) [0x70] 0 61 =
      some (4176, 4) := by
  obtain ⟨r, hr, hiff⟩ := @dtbGetprop_iff [[0x78], [0x62]] [0x70] _ 4096 61 nested nestedRoot 0
    nested_wellFormed nested_located (by decide) (by decide) (by decide)
  have hlookup : nestedRoot.lookup [[0x78], [0x62]] [0x70] = some ⟨40, [0x70], [1, 2, 3, 4]⟩ := rfl
  rw [hr, hiff.mpr ⟨unambiguous_iff.mpr rfl, ?_⟩, hlookup]
  · rfl
  · rw [hlookup]
    rintro p ⟨⟩
    decide

/-- There is no `/a/b`, but the search finds the property of `/x/b`. -/
theorem dtbGetprop_of_other :
    dtbGetprop (ofList 4096 nested.bytes) 4096 (pathOf [[0x61], [0x62]]) [0x70] 0 61 =
        some (4176, 4) ∧
      nestedRoot.lookup [[0x61], [0x62]] [0x70] = none := by
  refine ⟨?_, rfl⟩
  have hfirst : firstFound [[0x61], [0x62]] [0x70] (DtNode.occurrences (nestedRoot.walk [])) =
      some ([[0x78], [0x62, atSign, 0x31]], ⟨40, [0x70], [1, 2, 3, 4]⟩) := rfl
  rw [dtbGetprop_eq nested_wellFormed nested_located (by decide) (by decide) (by decide), hfirst]
  decide

end Result

end Boot
end OscKernel
