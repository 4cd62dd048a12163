import OscKernel.Boot.DtbTree
import OscKernel.Boot.MemoryRegion
import OscKernel.Boot.ReservedMemory
import OscKernel.Kmalloc.Boot

/-!
# From the device tree to the heap (`main.c`)

Steps 3 to 10 of `main`: the memory and the regions that must not be touched are read off the device
tree, registered with the startup allocator, and the allocators are built on what is left.

* `mainMem`: these steps, on the bytes of the tree.
* `DtNode.declared`: what the tree says must not be touched.
* `mainMem_of_tree`: what is handed out in any run lies in the memory that the tree describes, and
  meets no page of what it declares, for a tree that the allocators have room for.

## Where the modules meet

No new loop is looked at here.  The readers of the tree (`dtbGetMemoryRegion`,
`dtbWalkReservedMemory`, `dtbGetprop`) give numbers; the numbers are the regions of the startup
allocator; its table is replayed into the buddy allocator; and the invariant of the two allocators
holds from there on in every run.  The theorem has the bytes of the tree at one end and the bytes
that a caller is given at the other.

## What `main` does not check

`main` takes an address of the ramdisk for what `_dtb_getprop` finds, which is what the path means
only if the search is `Unambiguous`.  It does not look whether `buddy_startup_alloc` returned
`NULL`, and goes on to write `frame_array` at address zero.  `buddy_startup_reserve` drops a region
when its table of sixteen entries is full.  Each of these is a hypothesis of the theorem, which is
about the trees for which the steps do what they are there for.
-/

namespace OscKernel
namespace Boot

open Bytes Startup StartupClient Transition

/-! ## The code -/

/-- `"chosen"`. -/
def chosenName : List UInt8 := [0x63, 0x68, 0x6f, 0x73, 0x65, 0x6e]
/-- `"linux,initrd-start"`. -/
def initrdStartName : List UInt8 :=
  [0x6c, 0x69, 0x6e, 0x75, 0x78, 0x2c, 0x69, 0x6e, 0x69, 0x74, 0x72, 0x64, 0x2d, 0x73, 0x74, 0x61,
    0x72, 0x74]
/-- `"linux,initrd-end"`. -/
def initrdEndName : List UInt8 :=
  [0x6c, 0x69, 0x6e, 0x75, 0x78, 0x2c, 0x69, 0x6e, 0x69, 0x74, 0x72, 0x64, 0x2d, 0x65, 0x6e, 0x64]

/-- `dtb_getprop`: the number in a property. -/
def dtbGetpropValue (m : Memory) (gDtbAddr : ℕ) (path propName : List UInt8) (fuel : ℕ) :
    Option ℕ :=
  (dtbGetprop m gDtbAddr path propName 0 fuel).bind fun (value, len) =>
    if value = 0 ∨ len < 4 then some 0
    else if 8 ≤ len then be64 m value
    else be32 m value

/-- `dtb_get_totalsize`. -/
def dtbGetTotalsize (m : Memory) (gDtbAddr : ℕ) : Option ℕ :=
  if gDtbAddr = 0 then some 0
  else
    (be32 m gDtbAddr).bind fun magic =>
      if magic ≠ fdtHeaderMagic then some 0 else be32 m (gDtbAddr + 4)

/-- Step 5 of `main`: the arguments of `buddy_startup_reserve`, in the order of the calls. -/
def mainRegions (m : Memory) (dtbPtr kernelStart kernelEnd fuel : ℕ) : Option (List (ℕ × ℕ)) :=
  (dtbGetTotalsize m dtbPtr).bind fun dtbSize =>
  (dtbGetpropValue m dtbPtr (pathOf [chosenName]) initrdStartName fuel).bind fun initrdStart =>
  (dtbGetpropValue m dtbPtr (pathOf [chosenName]) initrdEndName fuel).bind fun initrdEnd =>
  (dtbWalkReservedMemory m dtbPtr fuel).map fun calls =>
    [(dtbPtr, u64 (dtbPtr + dtbSize)), (kernelStart, kernelEnd)] ++
      (if initrdStart ≠ 0 ∧ initrdEnd > initrdStart then [(initrdStart, initrdEnd)] else []) ++
      calls.map fun r => (r.1, u64 (r.1 + r.2))

/-- Steps 3 to 10 of `main`: the addresses of `frame_array` and `page_pool_idx`, and the allocators.
`fa`, `ppi`, `pools` and `mem` are what the memory holds before they are written.  There is no
result when the tree has no memory, where `main` returns `-1`, and when the table of the startup
allocator is full.  An array for which no room was found is at the address `0`: `main` has no test
and goes on with it. -/
def mainMem (m : Memory) (dtbPtr kernelStart kernelEnd fuel : ℕ) (fa ppi : ℕ → ℤ)
    (pools : ℕ → Pool) (mem : ℕ → ℕ) : Option (ℕ × ℕ × MemClient) :=
  (dtbGetMemoryRegion m dtbPtr 0 0 fuel).bind fun (ret, memBase, memSize) =>
    if ret ≠ 0 then none
    else
      (mainRegions m dtbPtr kernelStart kernelEnd fuel).bind fun regions =>
      (mainMetadata memBase memSize regions).map fun (s, frameArray, pagePoolIdx) =>
        (frameArray, pagePoolIdx, bootMem fa memBase memSize s.gSaReserves pools ppi mem)

/-! ## What the tree says -/

/-- The number in a property: two words, or one, or `0` when there is less. -/
def DtProp.number (p : DtProp) : ℕ :=
  if 8 ≤ p.data.length then beValue (p.data.take 8)
  else if 4 ≤ p.data.length then beValue (p.data.take 4)
  else 0

namespace DtNode

/-- The number in the property that a path means. -/
def number (comps : List (List UInt8)) (propName : List UInt8) (root : DtNode) : ℕ :=
  (root.lookup comps propName).elim 0 DtProp.number

/-- The ramdisk. -/
def initrd (root : DtNode) : List (ℕ × ℕ) :=
  let start := root.number [chosenName] initrdStartName
  let «end» := root.number [chosenName] initrdEndName
  if start ≠ 0 ∧ «end» > start then [(start, «end»)] else []

mutual

/-- The tree, with the properties and the subnodes of a node in one list. -/
def entry : DtNode → DtEntry
  | .mk name props children => .node name (props.map .prop ++ entries children)

/-- The nodes as entries. -/
def entries : List DtNode → List DtEntry
  | [] => []
  | n :: ns => n.entry :: entries ns

end

/-- The ranges that the subnodes of `/reserved-memory` have in their `reg` properties. -/
def reservedMemory (root : DtNode) : List (ℕ × ℕ) :=
  ((((root.children.find? fun n => baseName n.name = reservedMemoryName).elim [] children).flatMap
    props).filter fun p => p.name = regName).flatMap fun p => regRanges p.data

/-- What must not be touched: the tree, which has `totalsize` bytes, the kernel, the ramdisk, and
reserved memory. -/
def declared (root : DtNode) (dtbPtr totalsize kernelStart kernelEnd : ℕ) : List (ℕ × ℕ) :=
  [(dtbPtr, dtbPtr + totalsize), (kernelStart, kernelEnd)] ++ root.initrd ++
    root.reservedMemory.map fun r => (r.1, r.1 + r.2)

end DtNode

/-! ## Trees as lists of entries -/

section Entries

mutual

theorem items_entry (n : DtNode) : n.entry.items = n.items := by
  cases n with
  | mk name props children =>
    have hprops : ∀ ps : List DtProp, DtEntry.itemsBody (ps.map .prop ++ DtNode.entries children) =
        ps.map DtProp.item ++ DtEntry.itemsBody (DtNode.entries children) := by
      intro ps
      induction ps with
      | nil => rfl
      | cons p ps ih =>
        rw [List.map_cons, List.cons_append, DtEntry.itemsBody, ih, DtEntry.items]
        rfl
    rw [DtNode.entry, DtEntry.items, hprops, items_entries children, DtNode.items,
      List.append_assoc]

theorem items_entries (ns : List DtNode) :
    DtEntry.itemsBody (DtNode.entries ns) = DtNode.itemsForest ns := by
  cases ns with
  | nil => rfl
  | cons n ns => rw [DtNode.entries, DtEntry.itemsBody, items_entry n, items_entries ns,
      DtNode.itemsForest]

end

theorem entries_eq_map (ns : List DtNode) : DtNode.entries ns = ns.map DtNode.entry := by
  induction ns with
  | nil => rfl
  | cons n ns ih => rw [DtNode.entries, ih, List.map_cons]

theorem body_entry (n : DtNode) :
    n.entry.body = n.props.map .prop ++ n.children.map DtNode.entry := by
  cases n with
  | mk name props children => rw [DtNode.entry, DtEntry.body, entries_eq_map]; rfl

/-- A node says the ranges of its properties. -/
theorem flatMap_ranges_body (n : DtNode) : n.entry.body.flatMap DtEntry.ranges =
    (n.props.filter fun p => p.name = regName).flatMap fun p => regRanges p.data := by
  have hchildren : (n.children.map DtNode.entry).flatMap DtEntry.ranges = [] := by
    refine List.flatMap_eq_nil_iff.mpr fun e he => ?_
    obtain ⟨⟨_, _, _⟩, -, rfl⟩ := List.mem_map.mp he
    rfl
  rw [body_entry, List.flatMap_append, hchildren, List.append_nil]
  induction n.props with
  | nil => rfl
  | cons p ps ih =>
    rw [List.map_cons, List.flatMap_cons, ih, DtEntry.ranges]
    by_cases hp : p.name = regName
    · rw [if_pos hp, List.filter_cons_of_pos (by simpa using hp), List.flatMap_cons]
    · rw [if_neg hp, List.filter_cons_of_neg (by simpa using hp), List.nil_append]

/-- **Reserved memory**, in both forms of the tree. -/
theorem reservedRanges_body (root : DtNode) :
    DtEntry.reservedRanges root.entry.body = root.reservedMemory := by
  have hfind : root.entry.body.find? (DtEntry.isNamed reservedMemoryName) =
      (root.children.find? fun n => baseName n.name = reservedMemoryName).map DtNode.entry := by
    have hprops : (root.props.map DtEntry.prop).find? (DtEntry.isNamed reservedMemoryName) =
        none := by
      refine List.find?_eq_none.mpr fun e he => ?_
      obtain ⟨p, -, rfl⟩ := List.mem_map.mp he
      exact Bool.false_ne_true
    have hnamed : DtEntry.isNamed reservedMemoryName ∘ DtNode.entry =
        fun n => decide (baseName n.name = reservedMemoryName) := by
      funext n
      cases n
      rfl
    rw [body_entry, List.find?_append, hprops, Option.none_or, List.find?_map, hnamed]
  unfold DtEntry.reservedRanges DtNode.reservedMemory
  rw [hfind]
  cases (root.children.find? fun n => baseName n.name = reservedMemoryName) with
  | none => rfl
  | some n =>
    rw [Option.map_some, Option.elim_some, Option.elim_some, body_entry, List.flatMap_append]
    have hprops : (n.props.map DtEntry.prop).flatMap DtEntry.body = [] := by
      refine List.flatMap_eq_nil_iff.mpr fun e he => ?_
      obtain ⟨p, -, rfl⟩ := List.mem_map.mp he
      rfl
    rw [hprops, List.nil_append]
    induction n.children with
    | nil => rfl
    | cons c cs ih =>
      rw [List.map_cons, List.flatMap_cons, List.flatMap_append, ih, flatMap_ranges_body,
        List.flatMap_cons, List.filter_append, List.flatMap_append]

end Entries

/-! ## Numbers in properties -/

section Numbers

variable {m : Memory} {dtbPtr fuel dtStruct off : ℕ} {blob : FdtBlob} {root : DtNode}
  {comps : List (List UInt8)} {propName : List UInt8}

/-- The data of a property is where its item says. -/
theorem at_of_mem_items {strings : List UInt8} {ts : List Token} {pos : ℕ} {name data : List UInt8}
    (h : At m (dtStruct + off) (ts.flatMap Token.bytes))
    (hmem : .prop pos name data ∈ items strings off ts) : At m (dtStruct + pos) data := by
  induction ts generalizing off with
  | nil => cases hmem
  | cons t ts ih =>
    rw [List.flatMap_cons, at_append, Nat.add_assoc] at h
    cases t with
    | prop nameoff data' =>
      rcases List.mem_cons.mp hmem with heq | hmem
      · obtain ⟨rfl, rfl, rfl⟩ := Item.prop.inj heq
        obtain ⟨-, hpayload⟩ := token_of_at h.1
        obtain ⟨-, hdata⟩ := at_append.mp hpayload
        obtain ⟨hdata, -⟩ := at_append.mp hdata
        rw [List.length_append, be32Bytes_length, be32Bytes_length] at hdata
        have hpos : dtStruct + (off + 12) = dtStruct + off + 4 + (4 + 4) := by omega
        rw [hpos]
        exact hdata
      · exact ih h.2 hmem
    | beginNode _ | endNode | fin =>
      exact ih h.2 ((List.mem_cons.mp hmem).resolve_left nofun)
    | nop => exact ih h.2 hmem

mutual

/-- The properties of a tree are among its items. -/
theorem item_mem_items {n : DtNode} {chain : Chain} {o : Chain × DtProp}
    (h : o ∈ DtNode.occurrences (n.walk chain)) : o.2.item ∈ n.items := by
  cases n with
  | mk name props children =>
    rw [DtNode.walk, DtNode.occurrences, List.flatMap_cons, List.mem_append] at h
    rw [DtNode.items]
    refine List.mem_cons_of_mem _ (List.mem_append.mpr ?_)
    rcases h with h | h
    · obtain ⟨p, hp, rfl⟩ := List.mem_map.mp h
      exact Or.inl (List.mem_map_of_mem hp)
    · exact Or.inr (List.mem_append_left _ (item_mem_itemsForest h))

theorem item_mem_itemsForest {ns : List DtNode} {chain : Chain} {o : Chain × DtProp}
    (h : o ∈ DtNode.occurrences (DtNode.walkForest chain ns)) :
    o.2.item ∈ DtNode.itemsForest ns := by
  cases ns with
  | nil => cases h
  | cons n ns =>
    rw [DtNode.walkForest, DtNode.occurrences, List.flatMap_append, List.mem_append] at h
    rw [DtNode.itemsForest]
    rcases h with h | h
    · exact List.mem_append_left _ (item_mem_items h)
    · exact List.mem_append_right _ (item_mem_itemsForest h)

end

/-- The length of what a property holds. -/
theorem length_le_of_mem_items {strings : List UInt8} {ts : List Token} {pos : ℕ}
    {name data : List UInt8} (hmem : .prop pos name data ∈ items strings off ts) :
    data.length ≤ (ts.flatMap Token.bytes).length := by
  induction ts generalizing off with
  | nil => cases hmem
  | cons t ts ih =>
    rw [List.flatMap_cons, List.length_append]
    cases t with
    | prop nameoff data' =>
      rcases List.mem_cons.mp hmem with heq | hmem
      · obtain ⟨rfl, rfl, rfl⟩ := Item.prop.inj heq
        rw [prop_length]
        omega
      · exact (ih hmem).trans (Nat.le_add_left _ _)
    | beginNode _ | endNode | fin =>
      exact (ih ((List.mem_cons.mp hmem).resolve_left nofun)).trans (Nat.le_add_left _ _)
    | nop => exact (ih hmem).trans (Nat.le_add_left _ _)

theorem at_take {a : ℕ} {l : List UInt8} (h : At m a l) (n : ℕ) : At m a (l.take n) := by
  rw [← List.take_append_drop n l, at_append] at h
  exact h.1

/-- **`dtb_getprop` returns the number** that the path means, when the search finds nothing else
before it. -/
theorem dtbGetpropValue_eq (hwf : blob.WellFormed dtbPtr root) (hm : blob.Located dtbPtr m)
    (hcomps : ∀ c ∈ comps, IsComponent c) (hprop : 0 ∉ propName)
    (hun : Unambiguous comps propName root) (hsize : blob.structBlock.length < 2 ^ 31)
    (hfuel : blob.structBlock.length < fuel) :
    dtbGetpropValue m dtbPtr (pathOf comps) propName fuel =
      some (root.number comps propName) := by
  rw [dtbGetpropValue, dtbGetprop_eq hwf hm hcomps hprop hfuel, unambiguous_iff.mp hun,
    DtNode.number, lookup_eq]
  cases hfind : (DtNode.occurrences (root.walk [])).find? fun o =>
      decide (Meant comps propName o) with
  | none => rfl
  | some o =>
    have hitem : o.2.item ∈ items blob.strings 0 blob.tokens := by
      rw [hwf.tree]
      exact List.mem_append_left _ (item_mem_items (List.mem_of_find?_eq_some hfind))
    have hat : At m (dtbPtr + blob.header.offDtStruct + o.2.pos) o.2.data :=
      at_of_mem_items hm.tokens hitem
    have hlen : o.2.data.length < 2 ^ 31 :=
      Nat.lt_of_le_of_lt (length_le_of_mem_items hitem) hsize
    have hcast : toInt32 o.2.data.length = o.2.data.length := (toInt32_eq_iff _).mpr hlen
    have hne : dtbPtr + blob.header.offDtStruct + o.2.pos ≠ 0 := fun h0 =>
      hwf.base_ne (Nat.eq_zero_of_add_eq_zero_right (Nat.eq_zero_of_add_eq_zero_right h0))
    simp only [Option.map_some, found, Option.elim_some, DtProp.place, Option.bind_some, hcast,
      DtProp.number]
    split_ifs with hshort hlong hlong' h4 h4' <;> try omega
    · rfl
    · refine be64_of_length (at_take hat 8) ?_
      rw [List.length_take]
      omega
    · refine be32_of_length (at_take hat 4) ?_
      rw [List.length_take]
      omega

/-- `dtb_get_totalsize` returns what the header says. -/
theorem dtbGetTotalsize_eq (hwf : blob.WellFormed dtbPtr root) (hm : blob.Located dtbPtr m) :
    dtbGetTotalsize m dtbPtr = some blob.header.totalsize := by
  have hmagic : be32 m dtbPtr = some blob.header.magic := hm.word hwf.block (i := 0) rfl
  rw [dtbGetTotalsize, if_neg hwf.base_ne, hmagic, Option.bind_some,
    if_neg (not_not.mpr hwf.magic)]
  exact hm.word hwf.block (i := 1) rfl

end Numbers

/-! ## The result -/

section Result

variable {m : Memory} {dtbPtr kernelStart kernelEnd fuel base size : ℕ} {blob : FdtBlob}
  {root : DtNode}

theorem fin_mem_items (hwf : blob.WellFormed dtbPtr root) :
    .fin ∈ items blob.strings 0 blob.tokens := by
  rw [hwf.tree]
  exact List.mem_append_right _ List.mem_cons_self

/-- The reserved memory of the tree is reported. -/
theorem walk_reservedMemory (hwf : blob.WellFormed dtbPtr root) (hm : blob.Located dtbPtr m)
    (hfuel : blob.structBlock.length < fuel) :
    dtbWalkReservedMemory m dtbPtr fuel = some root.reservedMemory := by
  have htree : items blob.strings 0 blob.tokens =
      (DtEntry.node root.name root.entry.body).items ++ [.fin] := by
    rw [hwf.tree, ← items_entry]
    cases root
    rfl
  rw [dtbWalkReservedMemory,
    (reservedVisitor_reads m).walk hwf.block hm (fin_mem_items hwf) hfuel, htree, Option.map_some,
    callsOf_tree, reservedRanges_body]

/-- The memory of the tree is found. -/
theorem walk_memoryRegion (hwf : blob.WellFormed dtbPtr root) (hm : blob.Located dtbPtr m)
    (hfuel : blob.structBlock.length < fuel) (hmemory : root.memoryRegion = some (base, size)) :
    dtbGetMemoryRegion m dtbPtr 0 0 fuel = some (0, base, size) := by
  rw [dtbGetMemoryRegion, (memoryVisitor_reads m).walk hwf.block hm (fin_mem_items hwf) hfuel,
    hwf.tree, run_tree, Option.map_some, hmemory]
  rfl

/-- The regions that `main` registers are those that the tree declares. -/
theorem mainRegions_eq (hwf : blob.WellFormed dtbPtr root) (hm : blob.Located dtbPtr m)
    (hstart : Unambiguous [chosenName] initrdStartName root)
    (hend : Unambiguous [chosenName] initrdEndName root)
    (hsize : blob.structBlock.length < 2 ^ 31) (hfuel : blob.structBlock.length < fuel)
    (hfit : ∀ r ∈ root.declared dtbPtr blob.header.totalsize kernelStart kernelEnd,
      r.2 ≤ 2 ^ 64 - pageSize) :
    mainRegions m dtbPtr kernelStart kernelEnd fuel =
      some (root.declared dtbPtr blob.header.totalsize kernelStart kernelEnd) := by
  have hwalk := walk_reservedMemory hwf hm hfuel
  have hword : ∀ r ∈ root.declared dtbPtr blob.header.totalsize kernelStart kernelEnd,
      u64 r.2 = r.2 := fun r hr => u64_of_lt (lt_of_le_of_lt (hfit r hr) (by decide))
  have hdtb := hword _ List.mem_cons_self
  have hcalls : root.reservedMemory.map (fun r => (r.1, u64 (r.1 + r.2))) =
      root.reservedMemory.map fun r => (r.1, r.1 + r.2) := by
    refine List.map_congr_left fun r hr => Prod.ext rfl (hword (r.1, r.1 + r.2) ?_)
    exact List.mem_append_right _ (List.mem_map_of_mem hr)
  rw [mainRegions, dtbGetTotalsize_eq hwf hm, Option.bind_some,
    dtbGetpropValue_eq hwf hm (by decide) (by decide) hstart hsize hfuel, Option.bind_some,
    dtbGetpropValue_eq hwf hm (by decide) (by decide) hend hsize hfuel, Option.bind_some, hwalk,
    Option.map_some, hdtb, hcalls]
  rfl

/-- The table covers what was registered and the two arrays. -/
theorem covers_mainMetadata (hbase : pageSize ∣ base) (hsize : pageSize ∣ size)
    (hroom : base + size + roundUp (size / pageSize * 4) < 2 ^ 64) {regions : List (ℕ × ℕ)}
    (hcount : regions.length ≤ 14) (hfit : ∀ r ∈ regions, r.2 ≤ 2 ^ 64 - pageSize) {s : Startup}
    {frameArray pagePoolIdx : ℕ}
    (hmeta : mainMetadata base size regions = some (s, frameArray, pagePoolIdx))
    (hfa : frameArray ≠ 0) (hppi : pagePoolIdx ≠ 0) :
    Startup.Covers base size ((pagePoolIdx, pagePoolIdx + size / pageSize) ::
      (frameArray, frameArray + size / pageSize * 4) :: regions) s := by
  have hcov := covers_regions hbase hsize (by omega) hcount fun r hr => by
    have hle := hfit r hr
    unfold pageSize at *
    omega
  obtain ⟨s', halloc, halloc'⟩ := mainMetadata_spec hmeta
  have hsmall : size / pageSize * 4 ≤ size := by
    unfold pageSize
    omega
  rw [u64_of_lt (by omega)] at halloc
  have hround : roundUp (size / pageSize) ≤ roundUp (size / pageSize * 4) :=
    Nat.mul_le_mul_right _ (Nat.div_le_div_right (by omega))
  exact (hcov.alloc hbase hroom halloc hfa).alloc hbase (by omega) halloc' hppi

/-- What is handed out meets no page of a region that the table covers: an entry would cover the
page of a common byte too. -/
theorem disjoint_of_covers {fa : ℕ → ℤ} (hbase : pageSize ∣ base) (hsize : pageSize ∣ size)
    (hend : base + size < 2 ^ 64) {regions : List (ℕ × ℕ)} {s : Startup}
    (hcov : Startup.Covers base size regions s) {c : MemClient}
    (hok : c.Ok base size (reservedBuddy fa base size s.gSaReserves).frameArray) {bytes : Set ℕ}
    (hb : c.Handed bytes) {r : ℕ × ℕ} (hr : r ∈ regions) : Disjoint bytes (overlapped r) := by
  refine Set.disjoint_left.mpr fun x hx hxr => ?_
  obtain ⟨hlow, hlt, hfree⟩ := hok.not_reserved hb hx
  have hpage : pageDown x = base + (x - base) / pageSize * pageSize := by
    obtain ⟨q, hq⟩ := hbase
    unfold pageDown pageSize at *
    omega
  have hover : pageDown x ∈ overlapped r := by
    obtain ⟨y, hy, heq⟩ := hxr
    exact ⟨y, hy, (pageDown_of_dvd (dvd_pageDown x)).trans heq⟩
  have hhigh : pageDown x < base + size := by
    rw [hpage]
    obtain ⟨q, rfl⟩ := hsize
    unfold pageSize at *
    omega
  obtain ⟨e, he, hxe⟩ := hcov.covered r hr _ hover (by omega) hhigh
  rw [hpage] at hxe
  exact hfree (Buddy.reserved_of_entry fa hbase hend hcov.entry he hxe)

/-- **From the bytes of the tree to the heap.**  The bytes at `dtbPtr` are those of a well-formed
tree, whose structure block is shorter than `2^31` bytes, and

* the searches for the two ends of the ramdisk find nothing else before them (`Unambiguous`: the
  source compares only the last component of a path with the node),
* the memory that the tree describes has whole pages, at the beginning of one, and ends so far below
  the end of the address space that adding the length of `frame_array` does not wrap,
* at most fourteen regions are declared, so that the table of the startup allocator has room for
  them and for the two arrays, and none of them reaches into the last page of the address space,
* room is found for both arrays: neither pointer is `NULL`, for which `main` does not look.

Then `main` builds its allocators, and in every run of them what is handed out lies in that memory
and meets no page of the tree, the kernel, the ramdisk, reserved memory, or the arrays. -/
theorem mainMem_of_tree (hwf : blob.WellFormed dtbPtr root) (hm : blob.Located dtbPtr m)
    (hstart : Unambiguous [chosenName] initrdStartName root)
    (hend : Unambiguous [chosenName] initrdEndName root)
    (hblock : blob.structBlock.length < 2 ^ 31) (hfuel : blob.structBlock.length < fuel)
    (hmemory : root.memoryRegion = some (base, size)) (hbase : pageSize ∣ base)
    (hsize : pageSize ∣ size) (hroom : base + size + roundUp (size / pageSize * 4) < 2 ^ 64)
    (hcount : (root.declared dtbPtr blob.header.totalsize kernelStart kernelEnd).length ≤ 14)
    (hfit : ∀ r ∈ root.declared dtbPtr blob.header.totalsize kernelStart kernelEnd,
      r.2 ≤ 2 ^ 64 - pageSize)
    {s : Startup} {frameArray pagePoolIdx : ℕ}
    (hmeta : mainMetadata base size
      (root.declared dtbPtr blob.header.totalsize kernelStart kernelEnd) =
        some (s, frameArray, pagePoolIdx))
    (hfa : frameArray ≠ 0) (hppi : pagePoolIdx ≠ 0) (fa ppi : ℕ → ℤ) (pools : ℕ → Pool)
    (mem : ℕ → ℕ) :
    ∃ c, mainMem m dtbPtr kernelStart kernelEnd fuel fa ppi pools mem =
        some (frameArray, pagePoolIdx, c) ∧
      ∀ c', Reachable MemClient.step anyStep c c' → ∀ bytes, c'.Handed bytes →
        bytes ⊆ Set.Ico base (base + size) ∧
          ∀ r ∈ (frameArray, frameArray + size / pageSize * 4) ::
            (pagePoolIdx, pagePoolIdx + size / pageSize) ::
              root.declared dtbPtr blob.header.totalsize kernelStart kernelEnd,
            Disjoint bytes (overlapped r) := by
  refine ⟨bootMem fa base size s.gSaReserves pools ppi mem, ?_, fun c' hc bytes hb => ?_⟩
  · rw [mainMem, walk_memoryRegion hwf hm hfuel hmemory, Option.bind_some]
    dsimp only
    rw [if_neg (not_not.mpr rfl), mainRegions_eq hwf hm hstart hend hblock hfuel hfit,
      Option.bind_some, hmeta, Option.map_some]
  have hcov := covers_mainMetadata hbase hsize hroom hcount hfit hmeta hfa hppi
  have hok := hc.invariant (P := MemClient.Ok base size _)
    (MemClient.ok_bootMem fa hbase (by omega) s.gSaReserves pools ppi mem)
    fun _ _ _ h _ hstep => h.step hstep
  refine ⟨fun x hx => ?_, fun r hr => ?_⟩
  · obtain ⟨hlow, hlt, -⟩ := hok.not_reserved hb hx
    refine ⟨hlow, ?_⟩
    obtain ⟨q, rfl⟩ := hsize
    unfold pageSize at *
    omega
  · exact disjoint_of_covers hbase hsize (by omega) hcov hok hb
      ((List.Perm.swap _ _ _).mem_iff.mp hr)

/-- A megabyte at `0x80000000`, whose tree has a ramdisk and a page of reserved memory. -/
def megabyte : FdtBlob where
  header := ⟨fdtHeaderMagic, 252, 40, 212, 40, 17, 16, 0, 40, 172⟩
  tokens := [.beginNode [], .beginNode chosenName, .prop 4 [0x80, 0x04, 0, 0],
    .prop 23 [0x80, 0x04, 0x10, 0], .endNode, .beginNode memoryName,
    .prop 0 [0, 0, 0, 0, 0x80, 0, 0, 0, 0, 0, 0, 0, 0, 0x10, 0, 0], .endNode,
    .beginNode reservedMemoryName, .beginNode [0x61],
    .prop 0 [0, 0, 0, 0, 0x80, 0x06, 0, 0, 0, 0, 0, 0, 0, 0, 0x10, 0], .endNode, .endNode,
    .endNode, .fin]
  strings := regName ++ [0] ++ initrdStartName ++ [0] ++ initrdEndName ++ [0]

/-- The tree of `megabyte`: the ramdisk has one page of the memory. -/
def megabyteRoot : DtNode :=
  .mk [] [] [
    .mk chosenName [⟨32, initrdStartName, [0x80, 0x04, 0, 0]⟩,
      ⟨48, initrdEndName, [0x80, 0x04, 0x10, 0]⟩] [],
    .mk memoryName [⟨80, regName, [0, 0, 0, 0, 0x80, 0, 0, 0, 0, 0, 0, 0, 0, 0x10, 0, 0]⟩] [],
    .mk reservedMemoryName [] [
      .mk [0x61] [⟨140, regName, [0, 0, 0, 0, 0x80, 0x06, 0, 0, 0, 0, 0, 0, 0, 0, 0x10, 0]⟩] []]]

theorem length_megabyte : megabyte.structBlock.length = 172 := by decide +kernel

theorem megabyte_wellFormed : megabyte.WellFormed 0x80020000 megabyteRoot where
  base_ne := by decide
  magic := rfl
  words := by decide
  size := length_megabyte.symm
  aligned := by decide
  fits := by rw [length_megabyte]; decide
  tokens := by decide
  tree := rfl

/-- The arrays lie in the two pages behind the kernel. -/
theorem mainMem_of_megabyte : ∃ c,
    mainMem (ofList 0x80020000 megabyte.bytes) 0x80020000 0x80000000 0x80010000 173
        (fun _ => 0) (fun _ => 0) (fun _ => ⟨0, 0⟩) (fun _ => 0) =
      some (0x80010000, 0x80011000, c) ∧
    ∀ c', Reachable MemClient.step anyStep c c' → ∀ bytes, c'.Handed bytes →
      Disjoint bytes (overlapped (0x80060000, 0x80061000)) := by
  have hdeclared : megabyteRoot.declared 0x80020000 megabyte.header.totalsize 0x80000000
      0x80010000 = [(0x80020000, 0x800200FC), (0x80000000, 0x80010000), (0x80040000, 0x80041000),
        (0x80060000, 0x80061000)] := by
    decide +kernel
  have hmeta : mainMetadata 0x80000000 0x100000
      (megabyteRoot.declared 0x80020000 megabyte.header.totalsize 0x80000000 0x80010000) = some
        (⟨[(0x80000000, 0x80010000), (0x80010000, 0x80011000), (0x80020000, 0x80021000),
          (0x80040000, 0x80041000), (0x80060000, 0x80061000), (0x80011000, 0x80012000)],
          0x80000000, 0x80100000⟩, 0x80010000, 0x80011000) := by
    rw [hdeclared]
    decide +kernel
  have hmemory : megabyteRoot.memoryRegion = some (0x80000000, 0x100000) := by decide +kernel
  have hfuel : megabyte.structBlock.length < 173 := by rw [length_megabyte]; decide
  have hlocated : megabyte.Located 0x80020000 (ofList 0x80020000 megabyte.bytes) :=
    FdtBlob.located_bytes rfl (by rw [length_megabyte]; rfl)
  obtain ⟨c, hmain, hrun⟩ := mainMem_of_tree megabyte_wellFormed hlocated
    (unambiguous_iff.mpr rfl) (unambiguous_iff.mpr rfl) (by rw [length_megabyte]; decide) hfuel
    hmemory (by decide) (by decide) (by decide) (by rw [hdeclared]; decide)
    (by rw [hdeclared]; decide) hmeta (by decide) (by decide) (fun _ => 0) (fun _ => 0)
    (fun _ => ⟨0, 0⟩) fun _ => 0
  refine ⟨c, hmain, fun c' hc bytes hb => (hrun c' hc bytes hb).2 _ ?_⟩
  rw [hdeclared]
  simp

end Result

end Boot
end OscKernel
