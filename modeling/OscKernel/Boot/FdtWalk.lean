import OscKernel.Boot.DtbTree

/-!
# Walks over a device tree (`dtb.c`)

`dtb_get_memory_region` and `dtb_walk_reserved_memory` have the same loop over the tokens of the
structure block.  They differ in what they keep (`σ`), in what they do at the beginning and the end
of a node and at a property, and in when they stop.

* `Visitor.walk`: the loop, with what a function does at a token as a parameter.
* `ItemVisitor.run`: the same over items, without addresses.
* `Visitor.Reads.walk`: the walk over the bytes is the walk over the items.
* `be64`, `beValue`: a pair of words of a `reg` property, and its value.

A function of the source is a `Visitor`, which still reads bytes; what it says about items is an
`ItemVisitor`.  `Visitor.Reads` connects the two with one field for each kind of token, and the
theorem about the loop is proved once for both functions.  The proofs about each of them begin with
its items and never see an address.
-/

namespace OscKernel
namespace Boot

open Bytes

variable {σ ρ : Type}

/-- What a function does at the tokens.  It gets the address of the name of a node; and of a
property the address of its name, and the address and the length of its value. -/
structure Visitor (σ ρ : Type) where
  beginNode : Memory → ℕ → σ → Option σ
  endNode : σ → σ
  prop : Memory → ℕ → ℕ → ℕ → σ → Option (σ ⊕ ρ)
  /-- The loop goes on. -/
  more : σ → Bool

/-- What a function does at the items: it gets names and values. -/
structure ItemVisitor (σ ρ : Type) where
  beginNode : List UInt8 → σ → σ
  endNode : σ → σ
  prop : List UInt8 → List UInt8 → σ → σ ⊕ ρ
  more : σ → Bool

namespace Visitor

variable (v : Visitor σ ρ) (m : Memory)

/-- A round of the loop: it goes on with `cur`, the loop ends, or the function returns. -/
def step (dtStrings fuel cur : ℕ) (s : σ) : Option ((ℕ × σ) ⊕ (σ ⊕ ρ)) :=
  (be32 m cur).bind fun token =>
  let cur := cur + 4
  if token = fdtBeginNode then
    (skipString m fuel cur).bind fun next =>
    (v.beginNode m cur s).map fun s => .inl (align32 next, s)
  else if token = fdtEndNode then some (.inl (cur, v.endNode s))
  else if token = fdtProp then
    (be32 m cur).bind fun propLen =>
    (be32 m (cur + 4)).bind fun nameoff =>
    let cur := cur + 8
    (v.prop m (dtStrings + nameoff) cur propLen s).map fun
      | .inl s => .inl (align32 (cur + propLen), s)
      | .inr r => .inr (.inr r)
  else if token = fdtNop then some (.inl (cur, s))
  else some (.inr (.inl s))

/-- The loop, at most `fuel` rounds. -/
def loop (structEnd dtStrings inner : ℕ) : ℕ → ℕ → σ → Option (σ ⊕ ρ)
  | 0, _, _ => none
  | fuel + 1, cur, s =>
      if cur < structEnd ∧ v.more s = true then
        (v.step m dtStrings inner cur s).bind fun
          | .inl (cur, s) => loop structEnd dtStrings inner fuel cur s
          | .inr r => some r
      else some (.inl s)

/-- The loop after the header has been read; nothing is done when there is none. -/
def walk (gDtbAddr fuel : ℕ) (s : σ) : Option (σ ⊕ ρ) :=
  if gDtbAddr = 0 then some (.inl s)
  else
    (be32 m gDtbAddr).bind fun magic =>
    if magic ≠ fdtHeaderMagic then some (.inl s)
    else
      (be32 m (gDtbAddr + 36)).bind fun structSize =>
      (be32 m (gDtbAddr + 8)).bind fun offDtStruct =>
      (be32 m (gDtbAddr + 12)).bind fun offDtStrings =>
      let dtStruct := gDtbAddr + offDtStruct
      v.loop m (dtStruct + structSize) (gDtbAddr + offDtStrings) fuel fuel dtStruct s

end Visitor

namespace ItemVisitor

variable (w : ItemVisitor σ ρ)

/-- The walk over items. -/
def run : List Item → σ → σ ⊕ ρ
  | [], s => .inl s
  | i :: is, s =>
      if w.more s = true then
        match i with
        | .beginNode name => run is (w.beginNode name s)
        | .endNode => run is (w.endNode s)
        | .prop _ name data =>
            match w.prop name data s with
            | .inl s => run is s
            | .inr r => .inr r
        | .fin => .inl s
      else .inl s

variable {w} {is : List Item} {s : σ} {name data : List UInt8} {pos : ℕ}

theorem run_of_not_more (h : w.more s = false) : w.run is s = .inl s := by
  cases is with
  | nil => rfl
  | cons i is => cases i <;> rw [run, h, if_neg Bool.false_ne_true]

theorem run_beginNode (h : w.more s = true) :
    w.run (.beginNode name :: is) s = w.run is (w.beginNode name s) := by
  rw [run, if_pos h]

theorem run_endNode (h : w.more s = true) :
    w.run (.endNode :: is) s = w.run is (w.endNode s) := by
  rw [run, if_pos h]

theorem run_prop (h : w.more s = true) : w.run (.prop pos name data :: is) s =
    (w.prop name data s).elim (w.run is) .inr := by
  rw [run, if_pos h]
  cases w.prop name data s <;> rfl

theorem run_fin : w.run (.fin :: is) s = .inl s := by
  rw [run]
  split_ifs <;> rfl

end ItemVisitor

/-! ## The two walks -/

/-- The function does at the bytes what `w` does at what they say. -/
structure Visitor.Reads (v : Visitor σ ρ) (w : ItemVisitor σ ρ) (m : Memory) : Prop where
  beginNode : ∀ {a name} s, At m a (name ++ [0]) → 0 ∉ name →
    v.beginNode m a s = some (w.beginNode name s)
  endNode : v.endNode = w.endNode
  prop : ∀ {a cur name data} s, At m a (name ++ [0]) → 0 ∉ name → At m cur data →
    v.prop m a cur data.length s = some (w.prop name data s)
  more : v.more = w.more

namespace Visitor

variable {v : Visitor σ ρ} {w : ItemVisitor σ ρ} {m : Memory} {cur off dtStrings fuel inner : ℕ}
  {strings : List UInt8} {t : Token} {ts : List Token} {s : σ}

/-- The end of the block ends the walk. -/
theorem step_fin (h : be32 m cur = some fdtEnd) :
    v.step m dtStrings inner cur s = some (.inr (.inl s)) := by
  rw [step, h, Option.bind_some, if_neg (show ¬ fdtEnd = fdtBeginNode by decide),
    if_neg (show ¬ fdtEnd = fdtEndNode by decide), if_neg (show ¬ fdtEnd = fdtProp by decide),
    if_neg (show ¬ fdtEnd = fdtNop by decide)]

/-- What one round does with the token. -/
theorem Reads.step (hv : v.Reads w m) (hstrings : At m dtStrings strings)
    (ht : t.WellFormed strings) (h : At m cur t.bytes) (hcur : 4 ∣ cur)
    (hfit : cur + t.bytes.length + 4 ≤ 2 ^ 64) (hinner : t.bytes.length ≤ inner) :
    v.step m dtStrings inner cur s = some (match t with
      | .beginNode name => .inl (cur + t.bytes.length, w.beginNode name s)
      | .endNode => .inl (cur + t.bytes.length, w.endNode s)
      | .prop nameoff data =>
          match w.prop (stringAt strings nameoff) data s with
          | .inl s => .inl (cur + t.bytes.length, s)
          | .inr r => .inr (.inr r)
      | .nop => .inl (cur + t.bytes.length, s)
      | .fin => .inr (.inl s)) := by
  obtain ⟨hcode, hpayload⟩ := token_of_at h
  have hcur4 : 4 ∣ cur + 4 := (Nat.dvd_add_right hcur).mpr (Nat.dvd_refl 4)
  cases t with
  | beginNode name =>
    obtain ⟨hname, -⟩ := at_append.mp hpayload
    rw [beginNode_length] at hfit hinner ⊢
    have hskip : skipString m inner (cur + 4) = some (cur + 4 + (name.length + 1)) :=
      skipString_of_at hname ht (by omega)
    have hbegin : be32 m cur = some fdtBeginNode := hcode
    rw [Visitor.step, hbegin, Option.bind_some, if_pos rfl, hskip, Option.bind_some,
      hv.beginNode s hname ht, Option.map_some, align32_eq hcur4 (by omega), Nat.add_assoc cur 4]
  | endNode =>
    have hend : be32 m cur = some fdtEndNode := hcode
    rw [Visitor.step, hend, Option.bind_some, if_neg (show ¬ fdtEndNode = fdtBeginNode by decide),
      if_pos rfl, hv.endNode]
    rfl
  | prop nameoff data =>
    obtain ⟨hoff, hdata, hstring⟩ := ht
    obtain ⟨hwords, hvalue⟩ := at_append.mp hpayload
    obtain ⟨hlenWord, hoffWord⟩ := at_append.mp hwords
    obtain ⟨hname, hnul⟩ := stringAt_of_at hstrings hstring
    have hnext : align32 (cur + 4 + 8 + data.length) =
        cur + (Token.prop nameoff data).bytes.length := by
      rw [prop_length] at hfit ⊢
      have hcur12 : 4 ∣ cur + 4 + 8 := (Nat.dvd_add_right hcur4).mpr ⟨2, rfl⟩
      rw [align32_eq hcur12 (by omega)]
      omega
    have hprop : be32 m cur = some fdtProp := hcode
    have hoffset : be32 m (cur + 4 + 4) = some nameoff := be32_of_at hoffWord hoff
    have hat : At m (cur + 4 + 8) data := (at_append.mp hvalue).1
    rw [Visitor.step, hprop, Option.bind_some, if_neg (show ¬ fdtProp = fdtBeginNode by decide),
      if_neg (show ¬ fdtProp = fdtEndNode by decide), if_pos rfl, be32_of_at hlenWord hdata,
      Option.bind_some]
    dsimp only
    rw [hoffset, Option.bind_some, hv.prop s hname hnul hat, Option.map_some, hnext]
  | nop =>
    have hnop : be32 m cur = some fdtNop := hcode
    rw [Visitor.step, hnop, Option.bind_some, if_neg (show ¬ fdtNop = fdtBeginNode by decide),
      if_neg (show ¬ fdtNop = fdtEndNode by decide), if_neg (show ¬ fdtNop = fdtProp by decide),
      if_pos rfl]
    rfl
  | fin => exact step_fin hcode

/-- **The loop over the bytes** is the walk over the items. -/
theorem Reads.loop (hv : v.Reads w m) (hstrings : At m dtStrings strings)
    (hts : ∀ t ∈ ts, t.WellFormed strings) (hfin : .fin ∈ items strings off ts)
    (h : At m cur (ts.flatMap Token.bytes)) (hcur : 4 ∣ cur)
    (hfit : cur + (ts.flatMap Token.bytes).length ≤ 2 ^ 64)
    (hinner : (ts.flatMap Token.bytes).length ≤ inner) (hfuel : ts.length < fuel) :
    v.loop m (cur + (ts.flatMap Token.bytes).length) dtStrings inner fuel cur s =
      some (w.run (items strings off ts) s) := by
  induction ts generalizing off cur s fuel with
  | nil => cases hfin
  | cons t ts ih =>
    obtain ⟨fuel, rfl⟩ := Nat.exists_eq_succ_of_ne_zero (Nat.ne_of_gt (Nat.lt_of_le_of_lt
      (Nat.zero_le _) hfuel))
    have hbytes := four_le_token_length t
    rw [List.flatMap_cons, List.length_append] at hfit hinner ⊢
    rw [List.flatMap_cons, at_append] at h
    rw [Visitor.loop]
    by_cases hmore : w.more s = true
    swap
    · rw [if_neg fun hand => hmore (hv.more ▸ hand.2),
        ItemVisitor.run_of_not_more (Bool.not_eq_true _ ▸ hmore)]
    rw [if_pos ⟨by omega, hv.more ▸ hmore⟩]
    have hnext : ∀ {s}, .fin ∈ items strings (off + t.bytes.length) ts →
        v.loop m (cur + (t.bytes.length + (ts.flatMap Token.bytes).length)) dtStrings inner fuel
          (cur + t.bytes.length) s =
            some (w.run (items strings (off + t.bytes.length) ts) s) := fun hfin => by
      rw [← Nat.add_assoc]
      exact ih (fun t' ht' => hts t' (List.mem_cons_of_mem _ ht')) hfin h.2
        ((Nat.dvd_add_right hcur).mpr (dvd_token_length t)) (by omega) (by omega)
        (Nat.lt_of_succ_lt_succ hfuel)
    -- a token that is followed by the end of the tree
    have hround : .fin ∈ items strings (off + t.bytes.length) ts → _ := fun hfin =>
      @Reads.step σ ρ v w m cur dtStrings inner strings t s hv hstrings (hts t List.mem_cons_self)
        h.1 hcur (by
          cases ts with
          | nil => cases hfin
          | cons t' ts =>
            have := four_le_token_length t'
            rw [List.flatMap_cons, List.length_append] at hfit
            omega) (by omega)
    cases t with
    | beginNode name =>
      have hfin' := (List.mem_cons.mp hfin).resolve_left (by simp)
      rw [hround hfin', Option.bind_some, items, ItemVisitor.run_beginNode hmore]
      exact hnext hfin'
    | endNode =>
      have hfin' := (List.mem_cons.mp hfin).resolve_left (by simp)
      rw [hround hfin', Option.bind_some, items, ItemVisitor.run_endNode hmore]
      exact hnext hfin'
    | prop nameoff data =>
      have hfin' := (List.mem_cons.mp hfin).resolve_left (by simp)
      rw [hround hfin', Option.bind_some, items, ItemVisitor.run_prop hmore]
      dsimp only
      cases w.prop (stringAt strings nameoff) data s with
      | inl s => exact hnext hfin'
      | inr r => rfl
    | nop =>
      have hfin' : .fin ∈ items strings (off + Token.nop.bytes.length) ts := hfin
      rw [hround hfin', Option.bind_some]
      exact hnext hfin'
    | fin =>
      have hend : be32 m cur = some fdtEnd := (token_of_at h.1).1
      rw [step_fin hend, Option.bind_some, items, ItemVisitor.run_fin]

/-- **The walk over a blob** is the walk over what it says. -/
theorem Reads.walk {base : ℕ} {blob : FdtBlob} (hv : v.Reads w m) (hblock : blob.Block base)
    (hm : blob.Located base m) (hfin : .fin ∈ items blob.strings 0 blob.tokens)
    (hfuel : blob.structBlock.length < fuel) :
    v.walk m base fuel s = some (w.run (items blob.strings 0 blob.tokens) s) := by
  have hmagic : be32 m base = some blob.header.magic := hm.word hblock (i := 0) rfl
  have hstruct : be32 m (base + 8) = some blob.header.offDtStruct := hm.word hblock (i := 2) rfl
  have hstrings : be32 m (base + 12) = some blob.header.offDtStrings := hm.word hblock (i := 3) rfl
  have hsize : be32 m (base + 36) = some blob.header.sizeDtStruct := hm.word hblock (i := 9) rfl
  rw [Visitor.walk, if_neg hblock.base_ne, hmagic, Option.bind_some,
    if_neg (not_not.mpr hblock.magic), hsize, Option.bind_some, hstruct, Option.bind_some,
    hstrings, Option.bind_some, hblock.size]
  exact hv.loop hm.strings hblock.tokens hfin hm.tokens hblock.aligned hblock.fits hfuel.le
    (Nat.lt_of_le_of_lt blob.length_tokens_le hfuel)

end Visitor

/-! ## Numbers of 64 bits -/

/-- `"reg"`. -/
def regName : List UInt8 := [0x72, 0x65, 0x67]

/-- Two words, the high one first. -/
def be64 (m : Memory) (a : ℕ) : Option ℕ :=
  (be32 m a).bind fun hi => (be32 m (a + 4)).map fun lo => hi <<< 32 ||| lo

/-- The number that the bytes `l` mean, the most significant first. -/
def beValue (l : List UInt8) : ℕ := Nat.ofDigits 256 (l.reverse.map UInt8.toNat)

/-- Entry `e` of a `reg` property: an address and a size. -/
def regEntry (data : List UInt8) (e : ℕ) : ℕ × ℕ :=
  (beValue ((data.drop (16 * e)).take 8), beValue ((data.drop (16 * e + 8)).take 8))

section Numbers

variable {m : Memory} {a : ℕ} {l data : List UInt8}

theorem beValue_lt (l : List UInt8) : beValue l < 256 ^ l.length := by
  have hlt : ∀ d ∈ l.reverse.map UInt8.toNat, d < 256 := by
    intro d hd
    obtain ⟨x, -, rfl⟩ := List.mem_map.mp hd
    exact x.toNat_lt
  have hbound := Nat.ofDigits_lt_base_pow_length (by decide) hlt
  rwa [List.length_map, List.length_reverse] at hbound

theorem beValue_append (l l' : List UInt8) :
    beValue (l ++ l') = beValue l * 256 ^ l'.length + beValue l' := by
  unfold beValue
  rw [List.reverse_append, List.map_append, Nat.ofDigits_append, List.length_map,
    List.length_reverse]
  ring

theorem be32_of_length (h : At m a l) (hl : l.length = 4) : be32 m a = some (beValue l) := by
  obtain ⟨x₃, x₂, x₁, x₀, rfl⟩ := List.length_eq_four.mp hl
  have htake : take m a 4 = some [x₃, x₂, x₁, x₀] := take_of_at h
  rw [be32, load32, htake, Option.map_some, Option.map_some]
  simp only [List.map_cons, List.map_nil, beValue, List.reverse_cons, List.reverse_nil,
    List.nil_append, List.cons_append]
  rw [bswap32_digits x₃.toNat_lt x₂.toNat_lt x₁.toNat_lt x₀.toNat_lt]
  simp only [Nat.ofDigits_cons, Nat.ofDigits_nil]
  congr 1
  ring

/-- **A pair of words** is the number that its bytes mean. -/
theorem be64_of_length (h : At m a l) (hl : l.length = 8) : be64 m a = some (beValue l) := by
  have hlen : (l.take 4).length = 4 := by rw [List.length_take, hl]; rfl
  have hlen' : (l.drop 4).length = 4 := by rw [List.length_drop, hl]
  rw [← List.take_append_drop 4 l, at_append, hlen] at h
  have hpow : 256 ^ 4 = 2 ^ 32 := by norm_num
  have hlt := beValue_lt (l.drop 4)
  rw [hlen', hpow] at hlt
  rw [be64, be32_of_length h.1 hlen, Option.bind_some, be32_of_length h.2 hlen', Option.map_some,
    ← Nat.shiftLeft_add_eq_or_of_lt hlt,
    Nat.shiftLeft_eq]
  conv_rhs => rw [← List.take_append_drop 4 l, beValue_append, hlen', hpow]

theorem at_drop_take {k n : ℕ} (h : At m a data) (hle : k ≤ data.length) :
    At m (a + k) ((data.drop k).take n) := by
  rw [← List.take_append_drop k data, at_append, List.length_take, Nat.min_eq_left hle] at h
  have hrest := h.2
  rw [← List.take_append_drop n (data.drop k), at_append] at hrest
  exact hrest.1

/-- **An entry of a `reg` property**, as the code reads it. -/
theorem be64_regEntry {e : ℕ} (h : At m a data) (hle : 16 * e + 16 ≤ data.length) :
    be64 m (a + 16 * e) = some (regEntry data e).1 ∧
      be64 m (a + 16 * e + 8) = some (regEntry data e).2 := by
  refine ⟨be64_of_length (at_drop_take h (by omega)) ?_, ?_⟩
  · rw [List.length_take, List.length_drop]
    omega
  · rw [Nat.add_assoc]
    refine be64_of_length (at_drop_take h (by omega)) ?_
    rw [List.length_take, List.length_drop]
    omega

end Numbers

end Boot
end OscKernel
