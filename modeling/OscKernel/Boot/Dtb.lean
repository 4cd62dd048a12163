import OscKernel.Boot.Cpio
import Mathlib.Data.List.TakeWhile

/-!
# The device tree (`dtb.c`)

`_dtb_getprop` walks the structure block of a flattened device tree and remembers two depths: how
deep it is, and where it found the node of the path.  Memory is what can be read: the walk has no
result when it leaves it.

* `dtbGetprop`: the walk, with fuel for its loops.
* `Token`: the tokens of a structure block; `Item`: what they say, without the `NOP`s.
* `dtbLoop_tokens`: the walk over the bytes is the walk over the items (`itemLoop`).

## From bytes to items

The source goes over words of the machine that hold the bytes of big-endian numbers, skips strings
to their `NUL`, and rounds up to the next word after each of them.  All of this is done away with
once: a structure block is the list of its tokens, each as its bytes are laid out, and the loop over
the bytes comes from one token to the next in one round (`dtbStep`).  What is left is a loop over
items that has neither addresses nor fuel, apart from the place of the data of a property, which is
what the function returns.

`path_segment`, `path_depth` and `node_name_match` are the source's, character by character.  A name
of a node is compared up to its unit address, and a component of the path is cut off after 63
characters, as the buffer of the source has it.
-/

namespace OscKernel
namespace Boot

open Bytes

/-! ## `dtb.c` -/

/-- `'/'`, which separates the components of a path. -/
def slash : UInt8 := 0x2f
/-- `'@'`, which separates the name of a node from its unit address. -/
def atSign : UInt8 := 0x40

/-- `*(uint32_t *)a`, on a little-endian machine. -/
def load32 (m : Memory) (a : ℕ) : Option ℕ :=
  (take m a 4).map fun l => Nat.ofDigits 256 (l.map UInt8.toNat)

/-- `bswap_32`. -/
def bswap32 (x : ℕ) : ℕ :=
  x / 2 ^ 24 % 256 + x / 2 ^ 16 % 256 * 2 ^ 8 + x / 2 ^ 8 % 256 * 2 ^ 16 + x % 256 * 2 ^ 24

/-- A big-endian word. -/
def be32 (m : Memory) (a : ℕ) : Option ℕ := (load32 m a).map bswap32

/-- `align_32`. -/
def align32 (addr : ℕ) : ℕ := u64 (addr + 3) / 4 * 4

/-- `FDT_HEADER_MAGIC`. -/
def fdtHeaderMagic : ℕ := 0xD00DFEED
/-- `FDT_BEGIN_NODE`. -/
def fdtBeginNode : ℕ := 1
/-- `FDT_END_NODE`. -/
def fdtEndNode : ℕ := 2
/-- `FDT_PROP`. -/
def fdtProp : ℕ := 3
/-- `FDT_NOP`. -/
def fdtNop : ℕ := 4
/-- `FDT_END`. -/
def fdtEnd : ℕ := 9

/-- `node_name_match`. -/
def nodeNameMatch (m : Memory) (nodeName : ℕ) : List UInt8 → Option Bool
  | [] => (m nodeName).map fun x => x == 0 || x == atSign
  | y :: seg => (m nodeName).bind fun x =>
      if x = 0 ∨ x = atSign then some false
      else if x ≠ y then some false
      else nodeNameMatch m (nodeName + 1) seg

/-- The loop of `path_segment` at `p`, where component `i` begins. -/
def pathSegmentLoop (idx : ℤ) : ℕ → List UInt8 → ℤ → Option (List UInt8)
  | 0, _, _ => none
  | fuel + 1, p, i =>
      if p = [] then none
      else
        let seg := p.takeWhile (· ≠ slash)
        let rest := p.dropWhile (· ≠ slash)
        if i = idx then some seg else pathSegmentLoop idx fuel (rest.drop 1) (i + 1)

/-- `path_segment`. -/
def pathSegment (path : List UInt8) (idx : ℤ) : Option (List UInt8) :=
  match path with
  | c :: p => if c = slash then pathSegmentLoop idx p.length p 0 else none
  | [] => none

/-- `path_depth`. -/
def pathDepth (path : List UInt8) : ℤ :=
  match path with
  | c :: p =>
      if c = slash then if p = [] then 0 else p.count slash + 1
      else -1
  | [] => -1

/-- The address after the string at `a`. -/
def skipString (m : Memory) : ℕ → ℕ → Option ℕ
  | 0, _ => none
  | fuel + 1, a => (m a).bind fun x => if x = 0 then some (a + 1) else skipString m fuel (a + 1)

/-- The comparison of the name of a property: the string at `a` is `b`. -/
def propNameEq (m : Memory) (a : ℕ) : List UInt8 → Option Bool
  | [] => (m a).map (· == 0)
  | y :: b => (m a).bind fun x =>
      if x = 0 ∧ y = 0 then some true
      else if x ≠ y then some false
      else propNameEq m (a + 1) b

/-- `cur`, `current_depth` and `matched_depth`. -/
structure DtbState where
  cur : ℕ
  currentDepth : ℤ
  matchedDepth : ℤ

/-- `matched_depth` after the beginning of a node, when `current_depth` has been increased. -/
def dtbEnter (m : Memory) (path : List UInt8) (nodeName : ℕ) (currentDepth matchedDepth : ℤ) :
    Option ℤ :=
  if matchedDepth < 0 then
    if currentDepth = 0 then some (if pathDepth path = 0 then 0 else matchedDepth)
    else
      match pathSegment path (currentDepth - 1) with
      | none => some matchedDepth
      | some seg => (nodeNameMatch m nodeName (seg.take 63)).map fun found =>
          if found then if currentDepth = pathDepth path then currentDepth else matchedDepth
          else matchedDepth
  else some matchedDepth

/-- A round of the loop of `_dtb_getprop`: it goes on, or it ends with a value and its length. -/
def dtbStep (m : Memory) (dtStrings : ℕ) (path propName : List UInt8) (fuel : ℕ) (s : DtbState) :
    Option (DtbState ⊕ ℕ × ℤ) :=
  (be32 m s.cur).bind fun token =>
  let cur := s.cur + 4
  if token = fdtBeginNode then
    (skipString m fuel cur).bind fun next =>
    let currentDepth := s.currentDepth + 1
    (dtbEnter m path cur currentDepth s.matchedDepth).map fun matchedDepth =>
      .inl ⟨align32 next, currentDepth, matchedDepth⟩
  else if token = fdtEndNode then
    some (.inl ⟨cur, s.currentDepth - 1,
      if s.matchedDepth = s.currentDepth then -1 else s.matchedDepth⟩)
  else if token = fdtProp then
    (be32 m cur).bind fun propLen =>
    (be32 m (cur + 4)).bind fun nameoff =>
    let cur := cur + 8
    let next : DtbState ⊕ ℕ × ℤ := .inl { s with cur := align32 (cur + propLen) }
    if 0 ≤ s.matchedDepth then
      (propNameEq m (dtStrings + nameoff) propName).map fun eq =>
        if eq then .inr (cur, toInt32 propLen) else next
    else some next
  else if token = fdtNop then some (.inl { s with cur := cur })
  else some (.inr (0, 0))

/-- The loop of `_dtb_getprop`, at most `fuel` rounds. -/
def dtbLoop (m : Memory) (structEnd dtStrings : ℕ) (path propName : List UInt8) (inner : ℕ) :
    ℕ → DtbState → Option (ℕ × ℤ)
  | 0, _ => none
  | fuel + 1, s =>
      if s.cur < structEnd then
        (dtbStep m dtStrings path propName inner s).bind fun
          | .inl s' => dtbLoop m structEnd dtStrings path propName inner fuel s'
          | .inr r => some r
      else some (0, 0)

/-- `_dtb_getprop`, with pointers that are not `NULL` apart from `g_dtb_addr`: the value, and what
is in `*lenp` after it.  The loops make at most `fuel` rounds. -/
def dtbGetprop (m : Memory) (gDtbAddr : ℕ) (path propName : List UInt8) (lenp : ℤ) (fuel : ℕ) :
    Option (ℕ × ℤ) :=
  if gDtbAddr = 0 then some (0, lenp)
  else
    (be32 m gDtbAddr).bind fun magic =>
    if magic ≠ fdtHeaderMagic then some (0, lenp)
    else
      (be32 m (gDtbAddr + 36)).bind fun structSize =>
      (be32 m (gDtbAddr + 8)).bind fun offDtStruct =>
      (be32 m (gDtbAddr + 12)).bind fun offDtStrings =>
      let dtStruct := gDtbAddr + offDtStruct
      dtbLoop m (dtStruct + structSize) (gDtbAddr + offDtStrings) path propName fuel fuel
        ⟨dtStruct, -1, -1⟩

/-! ## The structure block -/

/-- The big-endian bytes of a word. -/
def be32Bytes (n : ℕ) : List UInt8 :=
  [n / 2 ^ 24, n / 2 ^ 16, n / 2 ^ 8, n].map UInt8.ofNat

/-- A token of the structure block, with what follows it. -/
inductive Token where
  | beginNode (name : List UInt8)
  | endNode
  | prop (nameoff : ℕ) (data : List UInt8)
  | nop
  | fin

namespace Token

/-- What follows the token. -/
def payload : Token → List UInt8
  | .beginNode name => name ++ [0] ++ zeroPad (name.length + 1)
  | .prop nameoff data =>
      be32Bytes data.length ++ be32Bytes nameoff ++ (data ++ zeroPad data.length)
  | .endNode | .nop | .fin => []

/-- The word that a token begins with. -/
def code : Token → ℕ
  | .beginNode _ => fdtBeginNode
  | .endNode => fdtEndNode
  | .prop _ _ => fdtProp
  | .nop => fdtNop
  | .fin => fdtEnd

/-- The token as it lies in the structure block. -/
def bytes (t : Token) : List UInt8 := be32Bytes t.code ++ t.payload

/-- The names are strings, and the numbers fit into their words. -/
def WellFormed (strings : List UInt8) : Token → Prop
  | .beginNode name => 0 ∉ name
  | .prop nameoff data => nameoff < 2 ^ 32 ∧ data.length < 2 ^ 32 ∧ 0 ∈ strings.drop nameoff
  | .endNode | .nop | .fin => True

instance (strings : List UInt8) : ∀ t : Token, Decidable (t.WellFormed strings)
  | .beginNode name => inferInstanceAs (Decidable (0 ∉ name))
  | .prop _ _ => inferInstanceAs (Decidable (_ ∧ _ ∧ _))
  | .endNode | .nop | .fin => inferInstanceAs (Decidable True)

end Token

/-- The string at an offset of the strings block. -/
def stringAt (strings : List UInt8) (nameoff : ℕ) : List UInt8 :=
  (strings.drop nameoff).takeWhile (· ≠ 0)

/-- What the tokens say: a property has a name, and a place in the structure block. -/
inductive Item where
  | beginNode (name : List UInt8)
  | endNode
  | prop (pos : ℕ) (name data : List UInt8)
  | fin

/-- The items of a structure block; `off` is the place of the first token. -/
def items (strings : List UInt8) : ℕ → List Token → List Item
  | _, [] => []
  | off, .beginNode name :: ts =>
      .beginNode name :: items strings (off + (Token.beginNode name).bytes.length) ts
  | off, .endNode :: ts => .endNode :: items strings (off + Token.endNode.bytes.length) ts
  | off, .prop nameoff data :: ts =>
      .prop (off + 12) (stringAt strings nameoff) data ::
        items strings (off + (Token.prop nameoff data).bytes.length) ts
  | off, .nop :: ts => items strings (off + Token.nop.bytes.length) ts
  | off, .fin :: ts => .fin :: items strings (off + Token.fin.bytes.length) ts

/-- The name without the unit address. -/
def baseName (name : List UInt8) : List UInt8 := name.takeWhile (· ≠ atSign)

/-- `matched_depth` after the beginning of a node. -/
def itemEnter (comps : List (List UInt8)) (name : List UInt8) (currentDepth matchedDepth : ℤ) : ℤ :=
  if matchedDepth < 0 then
    if currentDepth = 0 then if comps = [] then 0 else matchedDepth
    else if currentDepth = comps.length ∧ comps[(currentDepth - 1).toNat]? =
      some (baseName name) then
      currentDepth
    else matchedDepth
  else matchedDepth

/-- The walk over the items: the place of the property that it finds, and its data. -/
def itemLoop (comps : List (List UInt8)) (propName : List UInt8) :
    List Item → ℤ → ℤ → Option (ℕ × List UInt8)
  | [], _, _ => none
  | .beginNode name :: is, cd, md =>
      itemLoop comps propName is (cd + 1) (itemEnter comps name (cd + 1) md)
  | .endNode :: is, cd, md => itemLoop comps propName is (cd - 1) (if md = cd then -1 else md)
  | .prop pos name data :: is, cd, md =>
      if 0 ≤ md ∧ name = propName then some (pos, data) else itemLoop comps propName is cd md
  | .fin :: _, _, _ => none

/-! ## Paths -/

/-- A component of a path. -/
def IsComponent (c : List UInt8) : Prop :=
  c ≠ [] ∧ c.length ≤ 63 ∧ 0 ∉ c ∧ slash ∉ c ∧ atSign ∉ c

instance (c : List UInt8) : Decidable (IsComponent c) :=
  inferInstanceAs (Decidable (_ ∧ _ ∧ _ ∧ _ ∧ _))

/-- The absolute path with the components `comps`. -/
def pathOf : List (List UInt8) → List UInt8
  | [] => [slash]
  | c :: cs => slash :: (c ++ cs.flatMap fun c => slash :: c)

variable {comps : List (List UInt8)} {c : List UInt8}

theorem count_flatMap_slash (h : ∀ c ∈ comps, IsComponent c) :
    (comps.flatMap fun c => slash :: c).count slash = comps.length := by
  induction comps with
  | nil => rfl
  | cons c cs ih =>
    have hc := (h c List.mem_cons_self).2.2.2.1
    rw [List.flatMap_cons, List.cons_append, List.count_cons_self, List.count_append,
      List.count_eq_zero.mpr hc, ih fun c' hc' => h c' (List.mem_cons_of_mem _ hc'),
      List.length_cons, Nat.zero_add]

theorem pathDepth_pathOf (h : ∀ c ∈ comps, IsComponent c) :
    pathDepth (pathOf comps) = comps.length := by
  cases comps with
  | nil => rfl
  | cons c cs =>
    have hc := h c List.mem_cons_self
    have hne : c ++ cs.flatMap (fun c => slash :: c) ≠ [] := fun hnil =>
      hc.1 (List.append_eq_nil_iff.mp hnil).1
    rw [pathOf, pathDepth, if_pos rfl, if_neg hne, List.count_append,
      List.count_eq_zero.mpr hc.2.2.2.1,
      count_flatMap_slash fun c' hc' => h c' (List.mem_cons_of_mem _ hc')]
    simp

/-- The first component of what is left of a path. -/
theorem takeWhile_slash (hc : slash ∉ c) :
    (c ++ comps.flatMap fun c => slash :: c).takeWhile (· ≠ slash) = c ∧
      (c ++ comps.flatMap fun c => slash :: c).dropWhile (· ≠ slash) =
        comps.flatMap fun c => slash :: c := by
  have hall : ∀ x ∈ c, decide (x ≠ slash) = true := by
    intro x hx
    rw [decide_eq_true_iff]
    rintro rfl
    exact hc hx
  have hrest : (comps.flatMap fun c => slash :: c).takeWhile (· ≠ slash) = [] ∧
      (comps.flatMap fun c => slash :: c).dropWhile (· ≠ slash) =
        comps.flatMap fun c => slash :: c := by
    cases comps with
    | nil => exact ⟨rfl, rfl⟩
    | cons d ds => simp
  rw [List.takeWhile_append_of_pos hall, List.dropWhile_append_of_pos hall, hrest.1, hrest.2,
    List.append_nil]
  exact ⟨rfl, rfl⟩

theorem pathSegmentLoop_eq (h : ∀ c' ∈ c :: comps, IsComponent c') {fuel : ℕ} {idx : ℕ} (i : ℤ)
    (hfuel : comps.length < fuel) :
    pathSegmentLoop (i + idx) fuel (c ++ comps.flatMap fun c => slash :: c) i =
      (c :: comps)[idx]? := by
  induction comps generalizing c fuel idx i with
  | nil =>
    obtain ⟨fuel, rfl⟩ := Nat.exists_eq_succ_of_ne_zero (Nat.ne_of_gt hfuel)
    have hc := h c List.mem_cons_self
    obtain ⟨htake, hdrop⟩ := @takeWhile_slash [] c hc.2.2.2.1
    rw [pathSegmentLoop, if_neg (by simpa using hc.1), htake, hdrop]
    cases idx with
    | zero => rw [if_pos (by simp)]; rfl
    | succ idx =>
      rw [if_neg (by push_cast; omega)]
      cases fuel with
      | zero => rfl
      | succ fuel => rfl
  | cons d ds ih =>
    obtain ⟨fuel, rfl⟩ := Nat.exists_eq_succ_of_ne_zero (Nat.ne_of_gt (Nat.lt_of_le_of_lt
      (Nat.zero_le _) hfuel))
    have hc := h c List.mem_cons_self
    obtain ⟨htake, hdrop⟩ := @takeWhile_slash (d :: ds) c hc.2.2.2.1
    rw [pathSegmentLoop, if_neg fun hnil => hc.1 (List.append_eq_nil_iff.mp hnil).1, htake, hdrop]
    cases idx with
    | zero => rw [if_pos (by simp)]; rfl
    | succ idx =>
      have hih := @ih d (fun c' hc' => h c' (List.mem_cons_of_mem _ hc')) fuel idx (i + 1)
        (Nat.lt_of_succ_lt_succ hfuel)
      rw [if_neg (by push_cast; omega)]
      have hidx : i + ((idx + 1 : ℕ) : ℤ) = i + 1 + (idx : ℤ) := by
        push_cast
        ring
      rw [hidx]
      exact hih

theorem length_le_flatMap_slash : comps.length ≤ (comps.flatMap fun c => slash :: c).length := by
  induction comps with
  | nil => exact Nat.le_refl 0
  | cons c cs ih =>
    rw [List.flatMap_cons, List.length_append, List.length_cons, List.length_cons]
    omega

theorem pathSegment_pathOf (h : ∀ c ∈ comps, IsComponent c) (idx : ℕ) :
    pathSegment (pathOf comps) idx = comps[idx]? := by
  cases comps with
  | nil => rfl
  | cons c cs =>
    have hlen : cs.length < (c ++ cs.flatMap fun c => slash :: c).length := by
      have hpos : 0 < c.length := List.length_pos_iff.mpr (h c List.mem_cons_self).1
      rw [List.length_append]
      have := @length_le_flatMap_slash cs
      omega
    have heq := @pathSegmentLoop_eq cs c h _ idx 0 hlen
    rw [Int.zero_add] at heq
    rw [pathOf, pathSegment, if_pos rfl, heq]

theorem pathSegmentLoop_of_lt {idx i : ℤ} (h : idx < i) (fuel : ℕ) (p : List UInt8) :
    pathSegmentLoop idx fuel p i = none := by
  induction fuel generalizing p i with
  | zero => rfl
  | succ fuel ih =>
    rw [pathSegmentLoop]
    split_ifs with hp hi
    · rfl
    · exact absurd hi (ne_of_gt h)
    · exact ih (h.trans (Int.lt_add_one_iff.mpr (le_refl i))) _

theorem pathSegment_of_neg {idx : ℤ} (h : idx < 0) (path : List UInt8) :
    pathSegment path idx = none := by
  unfold pathSegment
  cases path with
  | nil => rfl
  | cons c p =>
    dsimp only
    split_ifs
    · exact pathSegmentLoop_of_lt h _ _
    · rfl

/-! ## Reading -/

section Read

variable {m : Memory} {a : ℕ} {name seg b strings : List UInt8}

theorem bswap32_digits {d₀ d₁ d₂ d₃ : ℕ} (h₀ : d₀ < 256) (h₁ : d₁ < 256) (h₂ : d₂ < 256)
    (h₃ : d₃ < 256) : bswap32 (Nat.ofDigits 256 [d₀, d₁, d₂, d₃]) =
      d₃ + d₂ * 2 ^ 8 + d₁ * 2 ^ 16 + d₀ * 2 ^ 24 := by
  simp only [Nat.ofDigits_cons, Nat.ofDigits_nil, bswap32]
  omega

theorem be32_of_at {n : ℕ} (h : At m a (be32Bytes n)) (hn : n < 2 ^ 32) : be32 m a = some n := by
  have htake : take m a 4 = some (be32Bytes n) := take_of_at h
  have hswap : bswap32 (Nat.ofDigits 256 ((be32Bytes n).map UInt8.toNat)) = n := by
    have hmod : ∀ k, k % 2 ^ 8 < 256 := fun k => Nat.mod_lt _ (by decide)
    simp only [be32Bytes, List.map_cons, List.map_nil, UInt8.toNat_ofNat']
    rw [bswap32_digits (hmod _) (hmod _) (hmod _) (hmod _)]
    omega
  rw [be32, load32, htake, Option.map_some, Option.map_some, hswap]

theorem skipString_of_at (h : At m a (name ++ [0])) (hname : 0 ∉ name) {fuel : ℕ}
    (hfuel : name.length < fuel) : skipString m fuel a = some (a + name.length + 1) := by
  induction name generalizing a fuel with
  | nil =>
    obtain ⟨fuel, rfl⟩ := Nat.exists_eq_succ_of_ne_zero (Nat.ne_of_gt hfuel)
    rw [skipString, h.1, Option.bind_some, if_pos rfl]
    rfl
  | cons x name ih =>
    obtain ⟨fuel, rfl⟩ := Nat.exists_eq_succ_of_ne_zero (Nat.ne_of_gt (Nat.lt_of_le_of_lt
      (Nat.zero_le _) hfuel))
    have hx : x ≠ 0 := fun hx => hname (hx ▸ List.mem_cons_self)
    rw [skipString, h.1, Option.bind_some, if_neg hx,
      ih h.2 (fun h0 => hname (List.mem_cons_of_mem _ h0)) (Nat.lt_of_succ_lt_succ hfuel),
      List.length_cons, Nat.add_assoc a 1, Nat.add_comm 1]

/-- **`node_name_match`** ignores the unit address. -/
theorem nodeNameMatch_of_at (h : At m a (name ++ [0])) (hname : 0 ∉ name) (hseg : 0 ∉ seg)
    (hat : atSign ∉ seg) : nodeNameMatch m a seg = some (decide (baseName name = seg)) := by
  induction seg generalizing a name with
  | nil =>
    cases name with
    | nil =>
      rw [nodeNameMatch, h.1]
      rfl
    | cons x name =>
      have hx : x ≠ 0 := fun hx => hname (hx ▸ List.mem_cons_self)
      rw [nodeNameMatch, h.1, baseName]
      by_cases hxa : x = atSign
      · simp [hxa]
      · simp [hx, hxa]
  | cons y seg ih =>
    have hy : y ≠ atSign := fun hy => hat (hy ▸ List.mem_cons_self)
    cases name with
    | nil =>
      rw [nodeNameMatch, h.1, Option.bind_some, if_pos (Or.inl rfl)]
      rfl
    | cons x name =>
      have hx : x ≠ 0 := fun hx => hname (hx ▸ List.mem_cons_self)
      rw [nodeNameMatch, h.1, Option.bind_some]
      by_cases hxa : x = atSign
      · rw [if_pos (Or.inr hxa)]
        simp [baseName, hxa]
      · rw [if_neg fun hor => hor.elim hx hxa]
        by_cases hxy : x = y
        · rw [if_neg (not_not.mpr hxy), ih h.2 (fun h0 => hname (List.mem_cons_of_mem _ h0))
            (fun h0 => hseg (List.mem_cons_of_mem _ h0)) fun h0 => hat (List.mem_cons_of_mem _ h0)]
          simp [baseName, hxy, hy]
        · rw [if_pos hxy]
          simp [baseName, hxa, hxy]

theorem propNameEq_of_at (h : At m a (name ++ [0])) (hname : 0 ∉ name) (hb : 0 ∉ b) :
    propNameEq m a b = some (decide (name = b)) := by
  induction name generalizing a b with
  | nil =>
    cases b with
    | nil =>
      rw [propNameEq, h.1]
      rfl
    | cons y b =>
      have hy : y ≠ 0 := fun hy => hb (hy ▸ List.mem_cons_self)
      rw [propNameEq, h.1, Option.bind_some, if_neg fun hand => hy hand.2, if_pos (Ne.symm hy)]
      rfl
  | cons x name ih =>
    have hx : x ≠ 0 := fun hx => hname (hx ▸ List.mem_cons_self)
    cases b with
    | nil =>
      rw [propNameEq, h.1]
      simp [hx]
    | cons y b =>
      rw [propNameEq, h.1, Option.bind_some, if_neg fun hand => hx hand.1]
      by_cases hxy : x = y
      · rw [if_neg (not_not.mpr hxy), ih h.2 (fun h0 => hname (List.mem_cons_of_mem _ h0))
          fun h0 => hb (List.mem_cons_of_mem _ h0)]
        simp [hxy]
      · rw [if_pos hxy]
        simp [hxy]

/-- The strings of the strings block end within it. -/
theorem stringAt_of_at (h : At m a strings) {off : ℕ} (hoff : 0 ∈ strings.drop off) :
    At m (a + off) (stringAt strings off ++ [0]) ∧ 0 ∉ stringAt strings off := by
  have hnot : 0 ∉ stringAt strings off := fun h0 => by
    have hne := List.all_eq_true.mp List.all_takeWhile 0 h0
    simp at hne
  refine ⟨?_, hnot⟩
  -- what is not in the string begins with its terminator
  obtain ⟨rest, hrest⟩ : ∃ rest, (strings.drop off).dropWhile (· ≠ 0) = 0 :: rest := by
    cases hd : (strings.drop off).dropWhile (· ≠ 0) with
    | nil =>
      rw [List.dropWhile_eq_nil_iff] at hd
      exact absurd rfl (of_decide_eq_true (hd 0 hoff))
    | cons x rest =>
      have hx := List.head_dropWhile_not (p := fun x => decide (x ≠ 0)) (l := strings.drop off)
        (by rw [hd]; exact List.cons_ne_nil _ _)
      simp only [hd, List.head_cons, decide_eq_false_iff_not, not_not] at hx
      exact ⟨rest, by rw [hx]⟩
  have hsplit : strings = strings.take off ++ (stringAt strings off ++ [0] ++ rest) := by
    conv_lhs => rw [← List.take_append_drop off strings,
      ← List.takeWhile_append_dropWhile (p := fun x => decide (x ≠ 0)) (l := strings.drop off),
        hrest]
    rw [stringAt, List.append_assoc]
    rfl
  have hlen : (strings.take off).length = off := by
    rw [List.length_take]
    refine Nat.min_eq_left (Nat.le_of_lt ?_)
    by_contra hge
    rw [List.drop_eq_nil_of_le (Nat.not_lt.mp hge)] at hoff
    cases hoff
  rw [hsplit, at_append, at_append, hlen] at h
  exact h.2.1

/-- The beginning of a node. -/
theorem dtbEnter_of_at (hcomps : ∀ c ∈ comps, IsComponent c) (h : At m a (name ++ [0]))
    (hname : 0 ∉ name) (cd md : ℤ) :
    dtbEnter m (pathOf comps) a cd md = some (itemEnter comps name cd md) := by
  unfold dtbEnter itemEnter
  rw [pathDepth_pathOf hcomps]
  by_cases hmd : md < 0
  · rw [if_pos hmd, if_pos hmd]
    by_cases hcd : cd = 0
    · rw [if_pos hcd, if_pos hcd]
      exact congrArg some (if_congr (by rw [Int.natCast_eq_zero, List.length_eq_zero_iff]) rfl rfl)
    · rw [if_neg hcd, if_neg hcd]
      by_cases hpos : 0 < cd
      · obtain ⟨idx, hidx⟩ := Int.eq_ofNat_of_zero_le (Int.le_sub_one_iff.mpr hpos)
        rw [hidx, pathSegment_pathOf hcomps, Int.toNat_natCast]
        cases hseg : comps[idx]? with
        | none => simp
        | some seg =>
          have hc := hcomps seg (List.mem_of_getElem? hseg)
          dsimp only
          rw [List.take_of_length_le hc.2.1, nodeNameMatch_of_at h hname hc.2.2.1 hc.2.2.2.2,
            Option.map_some]
          by_cases hbase : baseName name = seg
          · simp [hbase]
          · simp [hbase, Ne.symm hbase]
      · have hlen : ¬ cd = comps.length := by omega
        have hmatch : ¬ (cd = comps.length ∧
            comps[(cd - 1).toNat]? = some (baseName name)) := fun hand => hlen hand.1
        rw [pathSegment_of_neg (by omega), if_neg hmatch]
  · rw [if_neg hmd, if_neg hmd]

end Read

/-! ## The walk over the tokens -/

/-- The value and the length that belong to a property that was found. -/
def found (dtStruct : ℕ) (r : Option (ℕ × List UInt8)) : ℕ × ℤ :=
  r.elim (0, 0) fun r => (dtStruct + r.1, toInt32 r.2.length)

theorem be32Bytes_length (n : ℕ) : (be32Bytes n).length = 4 := rfl

section Walk

variable {m : Memory} {dtStruct dtStrings cur off fuel inner : ℕ}
  {strings propName name : List UInt8}
  {cd md : ℤ} {t : Token} {ts : List Token}

/-- The token at `cur`. -/
theorem token_of_at (h : At m cur t.bytes) :
    be32 m cur = some t.code ∧ At m (cur + 4) t.payload := by
  obtain ⟨hcode, hpayload⟩ := at_append.mp h
  refine ⟨be32_of_at hcode ?_, hpayload⟩
  unfold Token.code
  split <;> decide

/-- A block with its padding, and the next token after it. -/
theorem align32_eq {a n : ℕ} (ha : 4 ∣ a) (h : a + n + (zeroPad n).length + 4 ≤ 2 ^ 64) :
    align32 (a + n) = a + (n + (zeroPad n).length) := by
  obtain ⟨hlt, hd⟩ := zeroPad_spec n
  have halign : align4 (a + n) = a + n + (zeroPad n).length := by
    refine align4_eq hlt ?_ (by omega)
    rw [Nat.add_assoc]
    exact (Nat.dvd_add_right ha).mpr hd
  rw [← Nat.add_assoc]
  exact halign

theorem beginNode_length (name : List UInt8) : (Token.beginNode name).bytes.length =
    4 + (name.length + 1 + (zeroPad (name.length + 1)).length) := by
  rw [Token.bytes, Token.payload, List.length_append, List.length_append, List.length_append]
  rfl

theorem prop_length (nameoff : ℕ) (data : List UInt8) : (Token.prop nameoff data).bytes.length =
    12 + (data.length + (zeroPad data.length).length) := by
  rw [Token.bytes, Token.payload, List.length_append, List.length_append, List.length_append,
    List.length_append, be32Bytes_length, be32Bytes_length, be32Bytes_length]
  omega

/-- The end of the block ends the walk. -/
theorem dtbStep_fin {path : List UInt8} (h : be32 m cur = some fdtEnd) :
    dtbStep m dtStrings path propName inner ⟨cur, cd, md⟩ = some (.inr (0, 0)) := by
  rw [dtbStep, h, Option.bind_some, if_neg (show ¬ fdtEnd = fdtBeginNode by decide),
    if_neg (show ¬ fdtEnd = fdtEndNode by decide), if_neg (show ¬ fdtEnd = fdtProp by decide),
    if_neg (show ¬ fdtEnd = fdtNop by decide)]

/-- What one round does with the token. -/
theorem dtbStep_of_at (hcomps : ∀ c ∈ comps, IsComponent c) (hprop : 0 ∉ propName)
    (hstrings : At m dtStrings strings) (ht : t.WellFormed strings) (h : At m cur t.bytes)
    (hcur : 4 ∣ cur) (hfit : cur + t.bytes.length + 4 ≤ 2 ^ 64) (hinner : t.bytes.length ≤ inner) :
    dtbStep m dtStrings (pathOf comps) propName inner ⟨cur, cd, md⟩ = some (match t with
      | .beginNode name => .inl ⟨cur + t.bytes.length, cd + 1, itemEnter comps name (cd + 1) md⟩
      | .endNode => .inl ⟨cur + t.bytes.length, cd - 1, if md = cd then -1 else md⟩
      | .prop nameoff data =>
          if 0 ≤ md ∧ stringAt strings nameoff = propName then
            .inr (cur + 12, toInt32 data.length)
          else .inl ⟨cur + t.bytes.length, cd, md⟩
      | .nop => .inl ⟨cur + t.bytes.length, cd, md⟩
      | .fin => .inr (0, 0)) := by
  obtain ⟨hcode, hpayload⟩ := token_of_at h
  have hcur4 : 4 ∣ cur + 4 := (Nat.dvd_add_right hcur).mpr (Nat.dvd_refl 4)
  cases t with
  | beginNode name =>
    obtain ⟨hname, -⟩ := at_append.mp hpayload
    rw [beginNode_length] at hfit hinner ⊢
    have hskip : skipString m inner (cur + 4) = some (cur + 4 + (name.length + 1)) :=
      skipString_of_at hname ht (by omega)
    have hbegin : be32 m cur = some fdtBeginNode := hcode
    rw [dtbStep, hbegin, Option.bind_some, if_pos rfl, hskip, Option.bind_some]
    dsimp only
    rw [dtbEnter_of_at hcomps hname ht, Option.map_some, align32_eq hcur4 (by omega),
      Nat.add_assoc cur 4]
  | endNode =>
    have hend : be32 m cur = some fdtEndNode := hcode
    rw [dtbStep, hend, Option.bind_some, if_neg (show ¬ fdtEndNode = fdtBeginNode by decide),
      if_pos rfl]
    rfl
  | prop nameoff data =>
    obtain ⟨hoff, hdata, hstring⟩ := ht
    obtain ⟨hwords, -⟩ := at_append.mp hpayload
    obtain ⟨hlenWord, hoffWord⟩ := at_append.mp hwords
    obtain ⟨hname, hnul⟩ := stringAt_of_at hstrings hstring
    have hnext : align32 (cur + 4 + 8 + data.length) =
        cur + (Token.prop nameoff data).bytes.length := by
      rw [prop_length] at hfit ⊢
      have hcur12 : 4 ∣ cur + 4 + 8 := (Nat.dvd_add_right hcur4).mpr ⟨2, rfl⟩
      rw [align32_eq hcur12 (by omega)]
      omega
    have hprop' : be32 m cur = some fdtProp := hcode
    have hoffset : be32 m (cur + 4 + 4) = some nameoff := be32_of_at hoffWord hoff
    rw [dtbStep, hprop', Option.bind_some, if_neg (show ¬ fdtProp = fdtBeginNode by decide),
      if_neg (show ¬ fdtProp = fdtEndNode by decide), if_pos rfl, be32_of_at hlenWord hdata,
      Option.bind_some]
    dsimp only
    rw [hoffset, Option.bind_some, hnext]
    by_cases hmd : 0 ≤ md
    · rw [if_pos hmd, propNameEq_of_at hname hnul hprop, Option.map_some]
      by_cases heq : stringAt strings nameoff = propName
      · simp [heq, hmd]
      · simp [heq]
    · have hnot : ¬ (0 ≤ md ∧ stringAt strings nameoff = propName) := fun hand => hmd hand.1
      rw [if_neg hmd, if_neg hnot]
  | nop =>
    have hnop : be32 m cur = some fdtNop := hcode
    rw [dtbStep, hnop, Option.bind_some, if_neg (show ¬ fdtNop = fdtBeginNode by decide),
      if_neg (show ¬ fdtNop = fdtEndNode by decide), if_neg (show ¬ fdtNop = fdtProp by decide),
      if_pos rfl]
    rfl
  | fin =>
    have hfin : be32 m cur = some fdtEnd := hcode
    rw [dtbStep_fin hfin]

/-- The length of a token is a multiple of four. -/
theorem dvd_token_length (t : Token) : 4 ∣ t.bytes.length := by
  cases t with
  | beginNode name =>
    rw [beginNode_length]
    exact (Nat.dvd_add_right (Nat.dvd_refl 4)).mpr (zeroPad_spec (name.length + 1)).2
  | prop nameoff data =>
    rw [prop_length]
    exact (Nat.dvd_add_right ⟨3, rfl⟩).mpr (zeroPad_spec data.length).2
  | endNode | nop | fin => exact Nat.dvd_refl 4

theorem four_le_token_length (t : Token) : 4 ≤ t.bytes.length := by
  rw [Token.bytes, List.length_append, be32Bytes_length]
  exact Nat.le_add_right 4 _

/-- **The walk over the bytes** is the walk over the items. -/
theorem dtbLoop_tokens (hcomps : ∀ c ∈ comps, IsComponent c) (hprop : 0 ∉ propName)
    (hstrings : At m dtStrings strings) (hts : ∀ t ∈ ts, t.WellFormed strings)
    (hfin : .fin ∈ items strings off ts) (h : At m (dtStruct + off) (ts.flatMap Token.bytes))
    (hcur : 4 ∣ dtStruct + off)
    (hfit : dtStruct + off + (ts.flatMap Token.bytes).length ≤ 2 ^ 64)
    (hinner : (ts.flatMap Token.bytes).length ≤ inner) (hfuel : ts.length < fuel) :
    dtbLoop m (dtStruct + off + (ts.flatMap Token.bytes).length) dtStrings (pathOf comps) propName
      inner fuel ⟨dtStruct + off, cd, md⟩ =
        some (found dtStruct (itemLoop comps propName (items strings off ts) cd md)) := by
  induction ts generalizing off cd md fuel with
  | nil => cases hfin
  | cons t ts ih =>
    obtain ⟨fuel, rfl⟩ := Nat.exists_eq_succ_of_ne_zero (Nat.ne_of_gt (Nat.lt_of_le_of_lt
      (Nat.zero_le _) hfuel))
    rw [List.flatMap_cons, List.length_append] at hfit hinner ⊢
    rw [List.flatMap_cons, at_append] at h
    have hlt : dtStruct + off <
        dtStruct + off + (t.bytes.length + (ts.flatMap Token.bytes).length) := by
      have := four_le_token_length t
      omega
    have hnextCur : 4 ∣ dtStruct + (off + t.bytes.length) := by
      rw [← Nat.add_assoc]
      exact (Nat.dvd_add_right hcur).mpr (dvd_token_length t)
    have hend : dtStruct + off + (t.bytes.length + (ts.flatMap Token.bytes).length) =
        dtStruct + (off + t.bytes.length) + (ts.flatMap Token.bytes).length := by omega
    have hnext : ∀ {cd md}, .fin ∈ items strings (off + t.bytes.length) ts →
        dtbLoop m (dtStruct + off + (t.bytes.length + (ts.flatMap Token.bytes).length)) dtStrings
          (pathOf comps) propName inner fuel ⟨dtStruct + off + t.bytes.length, cd, md⟩ =
          some (found dtStruct (itemLoop comps propName
            (items strings (off + t.bytes.length) ts) cd md)) := fun hfin => by
      rw [hend, Nat.add_assoc dtStruct off]
      refine ih (fun t' ht' => hts t' (List.mem_cons_of_mem _ ht')) hfin ?_ hnextCur
        (hend ▸ hfit) (by omega) (Nat.lt_of_succ_lt_succ hfuel)
      rw [← Nat.add_assoc]
      exact h.2
    -- a token that is followed by the end of the tree
    have hroom : .fin ∈ items strings (off + t.bytes.length) ts →
        dtStruct + off + t.bytes.length + 4 ≤ 2 ^ 64 := fun hfin => by
      cases ts with
      | nil => cases hfin
      | cons t' ts =>
        have := four_le_token_length t'
        rw [List.flatMap_cons, List.length_append] at hfit
        omega
    have hround : .fin ∈ items strings (off + t.bytes.length) ts → _ := fun hfin =>
      @dtbStep_of_at comps m dtStrings (dtStruct + off) inner strings propName cd md t hcomps hprop
        hstrings (hts t List.mem_cons_self) h.1 hcur (hroom hfin) (by omega)
    rw [dtbLoop, if_pos hlt]
    cases t with
    | beginNode name =>
      have hfin' := (List.mem_cons.mp hfin).resolve_left nofun
      rw [hround hfin', Option.bind_some]
      exact hnext hfin'
    | endNode =>
      have hfin' := (List.mem_cons.mp hfin).resolve_left nofun
      rw [hround hfin', Option.bind_some]
      exact hnext hfin'
    | prop nameoff data =>
      have hfin' := (List.mem_cons.mp hfin).resolve_left nofun
      rw [hround hfin', Option.bind_some, items, itemLoop]
      dsimp only
      by_cases hmatch : 0 ≤ md ∧ stringAt strings nameoff = propName
      · rw [if_pos hmatch, if_pos hmatch, found, Option.elim_some, Nat.add_assoc]
      · rw [if_neg hmatch, if_neg hmatch]
        exact hnext hfin'
    | nop =>
      have hfin' : .fin ∈ items strings (off + Token.nop.bytes.length) ts := hfin
      rw [hround hfin', Option.bind_some]
      exact hnext hfin'
    | fin =>
      have hend : be32 m (dtStruct + off) = some fdtEnd := (token_of_at h.1).1
      rw [dtbStep_fin hend, Option.bind_some]
      rfl

end Walk

end Boot
end OscKernel
