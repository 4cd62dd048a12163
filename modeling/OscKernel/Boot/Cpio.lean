import OscKernel.Lib.Bytes
import OscKernel.Word

/-!
# The initial ramdisk (`cpio.c`)

`cpio_find` walks an archive in the new ASCII format of `cpio`.  Memory is what can be read: the
walk has no result when it leaves the archive.

* `cpioFind`: the walk, with fuel for its loop.
* `CpioEntry`: an entry of an archive, as its bytes are laid out.
* `cpioFind_of_archive`: the first entry with the name is found, in every archive.

## What an archive is

An archive is not what the walk accepts: the walk takes any eight characters for a number, reads a
name up to its first `NUL` wherever that is, and goes to the next header by the sizes that it has
just read.  An archive is what the format says.  `CpioEntry.WellFormed` lays out the bytes of an
entry: a header of thirteen fields of eight hexadecimal digits, of either case, the name with its
`NUL`, the contents, and after both of them as much padding as brings the next part to a multiple of
four.  The bytes of the padding and the fields that the walk does not read are arbitrary, and so is
what follows the trailer.

## What the proof has to say

Two roundings have to agree.  The format pads relative to the beginning of the archive; `align_4`
rounds addresses.  This is why the archive is to begin at an address that is divisible by four, and
why it must not reach past the end of the address space, where the sums of the walk wrap.
`cpioFindLoop_entry` is one round, from one entry to the next; `cpioFindLoop_archive` is the
induction over the entries.

An entry that is called `TRAILER!!!` would end the walk, and an empty name is excluded with it
(`CpioEntry.Named`).  The length of the name in the header counts the `NUL`.
-/

namespace OscKernel
namespace Boot

open Bytes

/-! ## `cpio.c` -/

/-- What a digit adds to the number; other characters add nothing. -/
def hexDigit (c : UInt8) : ℕ :=
  if 0x30 ≤ c.toNat ∧ c.toNat ≤ 0x39 then c.toNat - 0x30
  else if 0x41 ≤ c.toNat ∧ c.toNat ≤ 0x46 then c.toNat - 0x41 + 10
  else if 0x61 ≤ c.toNat ∧ c.toNat ≤ 0x66 then c.toNat - 0x61 + 10
  else 0

/-- `hex2int`. -/
def hex2int (hex : List UInt8) : ℕ := hex.foldl (fun val c => u64 (u64 (val * 16) + hexDigit c)) 0

/-- `align_4`. -/
def align4 (addr : ℕ) : ℕ := u64 (addr + 3) / 4 * 4

/-- `"070701"`. -/
def cMagic : List UInt8 := [0x30, 0x37, 0x30, 0x37, 0x30, 0x31]

/-- `"TRAILER!!!"`. -/
def trailerName : List UInt8 := [0x54, 0x52, 0x41, 0x49, 0x4c, 0x45, 0x52, 0x21, 0x21, 0x21]

/-- `sizeof(struct cpio_newc_header)`. -/
def headerSize : ℕ := 110

/-- The place of `c_filesize` in the header. -/
def filesizeOffset : ℕ := 54
/-- The place of `c_namesize` in the header. -/
def namesizeOffset : ℕ := 94

/-- `*data` and `*size`. -/
structure CpioOut where
  data : ℕ
  size : ℕ

/-- The loop of `cpio_find`, at most `fuel` rounds. -/
def cpioFindLoop (m : Memory) (target : List UInt8) (out : CpioOut) : ℕ → ℕ → Option (ℤ × CpioOut)
  | 0, _ => none
  | fuel + 1, ptr =>
      (take m ptr 6).bind fun magic =>
      if magic ≠ cMagic then some (-1, out)
      else
        (take m (ptr + namesizeOffset) 8).bind fun cNamesize =>
        (take m (ptr + filesizeOffset) 8).bind fun cFilesize =>
        let filename := ptr + headerSize
        (strEq m filename trailerName).bind fun last =>
        if last then some (-1, out)
        else
          let fileData := align4 (u64 (filename + hex2int cNamesize))
          (strEq m filename target).bind fun found =>
          if found then some (0, ⟨fileData, hex2int cFilesize⟩)
          else cpioFindLoop m target out fuel (align4 (u64 (fileData + hex2int cFilesize)))

/-- `cpio_find`, with pointers that are not `NULL` apart from `archive`: the return value, and what
is in `*data` and `*size` after it. -/
def cpioFind (m : Memory) (archive : ℕ) (target : List UInt8) (out : CpioOut) (fuel : ℕ) :
    Option (ℤ × CpioOut) :=
  if archive = 0 then some (-1, out) else cpioFindLoop m target out fuel archive

/-! ## Archives -/

/-- `struct cpio_newc_header`, without `c_magic`. -/
structure CpioHeader where
  cIno : List UInt8
  cMode : List UInt8
  cUid : List UInt8
  cGid : List UInt8
  cNlink : List UInt8
  cMtime : List UInt8
  cFilesize : List UInt8
  cDevmajor : List UInt8
  cDevminor : List UInt8
  cRdevmajor : List UInt8
  cRdevminor : List UInt8
  cNamesize : List UInt8
  cCheck : List UInt8

/-- The fields in the order of the header. -/
def CpioHeader.fields (h : CpioHeader) : List (List UInt8) :=
  [h.cIno, h.cMode, h.cUid, h.cGid, h.cNlink, h.cMtime, h.cFilesize, h.cDevmajor, h.cDevminor,
    h.cRdevmajor, h.cRdevminor, h.cNamesize, h.cCheck]

/-- The header as it lies in the archive: the magic and the thirteen fields. -/
def CpioHeader.bytes (h : CpioHeader) : List UInt8 := cMagic ++ h.fields.flatten

/-- An entry, with the padding after its name and after its contents. -/
structure CpioEntry where
  header : CpioHeader
  name : List UInt8
  namePad : List UInt8
  contents : List UInt8
  contentsPad : List UInt8

namespace CpioEntry

/-- The entry as it lies in the archive. -/
def bytes (e : CpioEntry) : List UInt8 :=
  e.header.bytes ++ (e.name ++ [0] ++ e.namePad) ++ (e.contents ++ e.contentsPad)

/-- Where the contents are in the entry. -/
def contentsOffset (e : CpioEntry) : ℕ := headerSize + (e.name.length + 1) + e.namePad.length

/-- The entry is laid out as the format says. -/
structure WellFormed (e : CpioEntry) : Prop where
  fields : ∀ f ∈ e.header.fields, f.length = 8 ∧ ∃ n, IsHex f n
  namesize : IsHex e.header.cNamesize (e.name.length + 1)
  filesize : IsHex e.header.cFilesize e.contents.length
  namePad : e.namePad.length < 4 ∧ 4 ∣ e.contentsOffset
  contentsPad : e.contentsPad.length < 4 ∧ 4 ∣ e.contents.length + e.contentsPad.length
  name : 0 ∉ e.name

end CpioEntry

/-- The bytes of an archive: the entries, the trailer, and what follows. -/
def archiveBytes (es : List CpioEntry) (trailer : CpioEntry) (rest : List UInt8) : List UInt8 :=
  es.flatMap CpioEntry.bytes ++ (trailer.bytes ++ rest)

/-! ## Numbers -/

theorem hexDigit_of_isHexDigit {c : UInt8} {d : ℕ} (h : IsHexDigit c d) : hexDigit c = d := by
  unfold hexDigit
  rcases h with ⟨hd, hc⟩ | ⟨hd, hd', hc | hc⟩
  · rw [if_pos (by omega), hc]
    omega
  · rw [if_neg (by omega), if_pos (by omega), hc]
    omega
  · rw [if_neg (by omega), if_neg (by omega), if_pos (by omega), hc]
    omega

/-- The number so far, and the digits that follow. -/
theorem foldl_hexDigit {l : List UInt8} {ds : List ℕ} (h : List.Forall₂ IsHexDigit l ds) {val : ℕ}
    (hval : (val + 1) * 16 ^ l.length ≤ 2 ^ 64) :
    l.foldl (fun val c => u64 (u64 (val * 16) + hexDigit c)) val =
      val * 16 ^ l.length + Nat.ofDigits 16 ds.reverse := by
  induction h generalizing val with
  | nil => simp
  | @cons c d l ds hc hds ih =>
    have hd := hc.lt
    have hpos : 0 < 16 ^ l.length := Nat.pow_pos (by decide)
    rw [List.length_cons, Nat.pow_succ, ← Nat.mul_assoc] at hval
    have hstep : u64 (u64 (val * 16) + hexDigit c) = val * 16 + d := by
      rw [hexDigit_of_isHexDigit hc]
      have hle : (val + 1) * 16 ≤ 2 ^ 64 :=
        (Nat.mul_le_mul_right 16 (Nat.le_mul_of_pos_right _ hpos)).trans hval
      have hmul : u64 (val * 16) = val * 16 := u64_of_lt (by omega)
      rw [hmul, u64_of_lt (by omega)]
    have hnext : (val * 16 + d + 1) * 16 ^ l.length ≤ 2 ^ 64 := by
      refine (Nat.mul_le_mul_right _ (?_ : _ ≤ (val + 1) * 16)).trans ?_
      · omega
      · rw [Nat.mul_right_comm]
        exact hval
    rw [List.foldl_cons, hstep, ih hnext, List.reverse_cons, Nat.ofDigits_append,
      List.length_reverse, ← hds.length_eq, Nat.ofDigits_singleton, List.length_cons, Nat.pow_succ]
    ring

theorem hex2int_of_isHex {l : List UInt8} {n : ℕ} (h : IsHex l n) (hl : l.length ≤ 8) :
    hex2int l = n := by
  obtain ⟨ds, hds, rfl⟩ := h
  have hbound : (0 + 1) * 16 ^ l.length ≤ 2 ^ 64 := by
    rw [Nat.zero_add, Nat.one_mul]
    exact (Nat.pow_le_pow_right (by decide) hl).trans (by decide)
  rw [hex2int, foldl_hexDigit hds hbound, Nat.zero_mul, Nat.zero_add]

/-- Rounding an address up that is followed by fewer than four bytes of padding. -/
theorem align4_eq {a pad : ℕ} (hpad : pad < 4) (hd : 4 ∣ a + pad) (h : a + 3 < 2 ^ 64) :
    align4 a = a + pad := by
  unfold align4
  rw [u64_of_lt h]
  omega

/-! ## Reading an entry -/

/-- What the walk reads of an entry at `ptr`. -/
structure ReadsEntry (m : Memory) (ptr : ℕ) (e : CpioEntry) : Prop where
  magic : take m ptr 6 = some cMagic
  namesize : take m (ptr + namesizeOffset) 8 = some e.header.cNamesize
  filesize : take m (ptr + filesizeOffset) 8 = some e.header.cFilesize
  name : At m (ptr + headerSize) (e.name ++ [0])
  contents : At m (ptr + e.contentsOffset) e.contents

namespace CpioEntry

variable {m : Memory} {ptr : ℕ} {e : CpioEntry}

theorem WellFormed.headerBytes_length (h : e.WellFormed) : e.header.bytes.length = headerSize := by
  have hsum : (e.header.fields.map List.length).sum = 104 := by
    have hlen : ∀ n ∈ e.header.fields.map List.length, n = 8 := by
      intro n hn
      obtain ⟨f, hf, rfl⟩ := List.mem_map.mp hn
      exact (h.fields f hf).1
    rw [List.sum_eq_card_nsmul _ 8 hlen]
    rfl
  rw [CpioHeader.bytes, List.length_append, List.length_flatten, hsum]
  rfl

theorem WellFormed.bytes_length (h : e.WellFormed) :
    e.bytes.length = e.contentsOffset + e.contents.length + e.contentsPad.length := by
  rw [bytes, List.length_append, List.length_append, h.headerBytes_length]
  simp only [List.length_append, List.length_cons, List.length_nil, contentsOffset]
  omega

/-- The header, the name and the contents are where they are looked for. -/
theorem WellFormed.reads (h : e.WellFormed) (hat : At m ptr e.bytes) : ReadsEntry m ptr e := by
  have hlen : ∀ f ∈ e.header.fields, f.length = 8 := fun f hf => (h.fields f hf).1
  unfold bytes at hat
  rw [at_append, at_append, List.length_append, h.headerBytes_length] at hat
  obtain ⟨⟨hheader, hname⟩, hcontents⟩ := hat
  have htake : ∀ {a f}, f ∈ e.header.fields → At m a f → take m a 8 = some f := fun hf hat =>
    hlen _ hf ▸ take_of_at hat
  have hfields := hheader
  simp only [CpioHeader.bytes, CpioHeader.fields, List.flatten_cons, List.flatten_nil, at_append,
    forall_eq_or_imp, List.mem_cons] at hfields hlen
  obtain ⟨h₁, h₂, h₃, h₄, h₅, h₆, h₇, h₈, h₉, h₁₀, h₁₁, -⟩ := hlen
  obtain ⟨hmagic, -, -, -, -, -, -, hfilesize, -, -, -, -, hnamesize, -⟩ := hfields
  simp only [h₁, h₂, h₃, h₄, h₅, h₆] at hfilesize
  simp only [h₁, h₂, h₃, h₄, h₅, h₆, h₇, h₈, h₉, h₁₀, h₁₁] at hnamesize
  refine ⟨take_of_at hmagic, htake (by simp [CpioHeader.fields]) hnamesize,
    htake (by simp [CpioHeader.fields]) hfilesize, (at_append.mp hname).1, ?_⟩
  have hoffset : ptr + e.contentsOffset =
      ptr + (headerSize + (e.name ++ [0] ++ e.namePad).length) := by
    simp only [contentsOffset, List.length_append, List.length_cons, List.length_nil]
    omega
  rw [hoffset]
  exact (at_append.mp hcontents).1

end CpioEntry

/-! ## The walk -/

section Walk

variable {m : Memory} {target : List UInt8} {out : CpioOut} {fuel ptr : ℕ} {e : CpioEntry}

/-- The walk ends at the trailer. -/
theorem cpioFindLoop_trailer (h : e.WellFormed) (hat : At m ptr e.bytes)
    (hname : e.name = trailerName) :
    cpioFindLoop m target out (fuel + 1) ptr = some (-1, out) := by
  have hr := h.reads hat
  rw [cpioFindLoop, hr.magic, Option.bind_some, if_neg (not_not.mpr rfl), hr.namesize,
    Option.bind_some, hr.filesize, Option.bind_some]
  dsimp only
  rw [strEq_of_at hr.name h.name (by decide), Option.bind_some]
  simp [hname]

/-- The walk looks at an entry, and goes on after it when the name is another. -/
theorem cpioFindLoop_entry (h : e.WellFormed) (hat : At m ptr e.bytes) (hptr : 4 ∣ ptr)
    (hfit : ptr + e.bytes.length + 3 < 2 ^ 64) (hname : e.name ≠ trailerName)
    (htarget : 0 ∉ target) :
    cpioFindLoop m target out (fuel + 1) ptr =
      if e.name = target then some (0, ⟨ptr + e.contentsOffset, e.contents.length⟩)
      else cpioFindLoop m target out fuel (ptr + e.bytes.length) := by
  have hr := h.reads hat
  rw [h.bytes_length] at hfit
  have hnamesize : hex2int e.header.cNamesize = e.name.length + 1 :=
    hex2int_of_isHex h.namesize (h.fields _ (by simp [CpioHeader.fields])).1.le
  have hfilesize : hex2int e.header.cFilesize = e.contents.length :=
    hex2int_of_isHex h.filesize (h.fields _ (by simp [CpioHeader.fields])).1.le
  have hoffset : e.contentsOffset = headerSize + (e.name.length + 1) + e.namePad.length := rfl
  have hdata : align4 (u64 (ptr + headerSize + (e.name.length + 1))) = ptr + e.contentsOffset := by
    rw [u64_of_lt (by omega), align4_eq h.namePad.1 ?_ (by omega), hoffset]
    · omega
    · have hd := (Nat.dvd_add_right hptr).mpr h.namePad.2
      rw [hoffset] at hd
      simpa only [Nat.add_assoc] using hd
  have hnext : align4 (u64 (ptr + e.contentsOffset + e.contents.length)) =
      ptr + e.bytes.length := by
    rw [u64_of_lt (by omega), align4_eq h.contentsPad.1 ?_ (by omega), h.bytes_length]
    · omega
    · have hd := (Nat.dvd_add_right ((Nat.dvd_add_right hptr).mpr h.namePad.2)).mpr h.contentsPad.2
      simpa only [Nat.add_assoc] using hd
  rw [cpioFindLoop, hr.magic, Option.bind_some, if_neg (not_not.mpr rfl), hr.namesize,
    Option.bind_some, hr.filesize, Option.bind_some]
  dsimp only
  rw [strEq_of_at hr.name h.name (by decide), Option.bind_some, decide_eq_false hname, hnamesize,
    hfilesize, hdata, strEq_of_at hr.name h.name htarget, Option.bind_some, hnext]
  simp

/-- An entry that can be found: its name is a string that is not the name of the trailer. -/
def CpioEntry.Named (e : CpioEntry) : Prop := e.WellFormed ∧ e.name ≠ [] ∧ e.name ≠ trailerName

/-- The entry at the end of an archive. -/
def CpioEntry.IsTrailer (e : CpioEntry) : Prop :=
  e.WellFormed ∧ e.name = trailerName ∧ e.contents = []

theorem dvd_bytes_length (h : e.WellFormed) : 4 ∣ e.bytes.length := by
  rw [h.bytes_length, Nat.add_assoc]
  exact (Nat.dvd_add_right h.namePad.2).mpr h.contentsPad.2

variable {trailer : CpioEntry} {es : List CpioEntry} {rest : List UInt8}

theorem headerSize_le_bytes_length (h : e.WellFormed) : headerSize ≤ e.bytes.length := by
  rw [h.bytes_length, CpioEntry.contentsOffset]
  omega

/-- **The walk over an archive** at `ptr`. -/
theorem cpioFindLoop_archive (hes : ∀ e ∈ es, e.Named) (ht : trailer.IsTrailer)
    (hat : At m ptr (archiveBytes es trailer rest)) (hptr : 4 ∣ ptr)
    (hfit : ptr + (archiveBytes es trailer rest).length ≤ 2 ^ 64) (htarget : 0 ∉ target)
    (hfuel : es.length < fuel) :
    (∀ pre e post, es = pre ++ e :: post → (∀ e' ∈ pre, e'.name ≠ target) → e.name = target →
      cpioFindLoop m target out fuel ptr = some (0,
        ⟨ptr + (pre.flatMap CpioEntry.bytes).length + e.contentsOffset, e.contents.length⟩)) ∧
    ((∀ e ∈ es, e.name ≠ target) → cpioFindLoop m target out fuel ptr = some (-1, out)) := by
  induction es generalizing ptr fuel with
  | nil =>
    obtain ⟨fuel, rfl⟩ := Nat.exists_eq_succ_of_ne_zero (Nat.ne_of_gt hfuel)
    have htrailer : At m ptr (trailer.bytes ++ rest) := hat
    exact ⟨fun pre e post h => by simp at h,
      fun _ => cpioFindLoop_trailer ht.1 (at_append.mp htrailer).1 ht.2.1⟩
  | cons e es ih =>
    obtain ⟨fuel, rfl⟩ := Nat.exists_eq_succ_of_ne_zero (Nat.ne_of_gt (Nat.lt_of_le_of_lt
      (Nat.zero_le _) hfuel))
    have he := hes e List.mem_cons_self
    have hsplit : archiveBytes (e :: es) trailer rest =
        e.bytes ++ archiveBytes es trailer rest := by
      rw [archiveBytes, List.flatMap_cons, List.append_assoc]
      rfl
    rw [hsplit, at_append] at hat
    rw [hsplit, List.length_append] at hfit
    have htrailer : headerSize ≤ (archiveBytes es trailer rest).length := by
      have hle := headerSize_le_bytes_length ht.1
      rw [archiveBytes, List.length_append, List.length_append]
      omega
    have hround := @cpioFindLoop_entry m target out fuel ptr e he.1 hat.1 hptr
      (by unfold headerSize at htrailer; omega) he.2.2 htarget
    obtain ⟨hfound, hnone⟩ := ih (fun e' he' => hes e' (List.mem_cons_of_mem _ he')) hat.2
      ((Nat.dvd_add_right hptr).mpr (dvd_bytes_length he.1)) (by omega)
      (Nat.lt_of_succ_lt_succ hfuel)
    constructor
    · intro pre e' post hpre hnot hname
      cases pre with
      | nil =>
        obtain ⟨rfl, -⟩ := List.cons.inj hpre
        rw [hround, if_pos hname]
        rfl
      | cons e'' pre =>
        obtain ⟨hhead, htail⟩ := List.cons.inj hpre
        subst hhead
        rw [hround, if_neg (hnot e List.mem_cons_self),
          hfound pre e' post htail (fun e' he' => hnot e' (List.mem_cons_of_mem _ he')) hname,
          List.flatMap_cons, List.length_append, ← Nat.add_assoc]
    · intro hnot
      rw [hround, if_neg (hnot e List.mem_cons_self),
        hnone fun e' he' => hnot e' (List.mem_cons_of_mem _ he')]

/-- **The ramdisk.**  In an archive that begins at an aligned address, `cpio_find` finds the
contents of the first entry with the name, and returns `-1` and leaves `*data` and `*size` alone
when there is none.  It reads nothing outside the archive. -/
theorem cpioFind_of_archive {base : ℕ} (hes : ∀ e ∈ es, e.Named) (ht : trailer.IsTrailer)
    (hbase : 4 ∣ base) (hne : base ≠ 0)
    (hfit : base + (archiveBytes es trailer rest).length ≤ 2 ^ 64) (htarget : 0 ∉ target)
    (out : CpioOut) (hfuel : es.length < fuel) :
    (∀ pre e post, es = pre ++ e :: post → (∀ e' ∈ pre, e'.name ≠ target) → e.name = target →
      ∃ data, At (ofList base (archiveBytes es trailer rest)) data e.contents ∧
        data = base + (pre.flatMap CpioEntry.bytes).length + e.contentsOffset ∧
        cpioFind (ofList base (archiveBytes es trailer rest)) base target out fuel =
          some (0, ⟨data, e.contents.length⟩)) ∧
    ((∀ e ∈ es, e.name ≠ target) →
      cpioFind (ofList base (archiveBytes es trailer rest)) base target out fuel =
        some (-1, out)) := by
  have hat := at_ofList base (archiveBytes es trailer rest)
  unfold cpioFind
  rw [if_neg hne]
  obtain ⟨hfound, hnone⟩ := cpioFindLoop_archive hes ht hat hbase hfit htarget hfuel
  refine ⟨fun pre e post hpre hnot hname => ⟨_, ?_, rfl, hfound pre e post hpre hnot hname⟩, hnone⟩
  -- the entry is where the entries before it end
  have he : e.Named := hes e (hpre ▸ List.mem_append_right _ List.mem_cons_self)
  have hsplit : archiveBytes es trailer rest = pre.flatMap CpioEntry.bytes ++
      (e.bytes ++ archiveBytes post trailer rest) := by
    rw [archiveBytes, hpre, List.flatMap_append, List.flatMap_cons]
    simp only [List.append_assoc]
    rfl
  have hentry := hat
  rw [hsplit, at_append, at_append] at hentry
  rw [← hsplit] at hentry
  exact (he.1.reads hentry.2.1).contents

end Walk

/-! ## Encoding -/

/-- The digit of the value `d`, in lower case. -/
def hexChar (d : ℕ) : UInt8 := UInt8.ofNat (if d < 10 then 0x30 + d else 0x57 + d)

/-- The eight digits of `n`. -/
def hexField (n : ℕ) : List UInt8 :=
  [n / 0x10000000 % 16, n / 0x1000000 % 16, n / 0x100000 % 16, n / 0x10000 % 16, n / 0x1000 % 16,
    n / 0x100 % 16, n / 0x10 % 16, n % 16].map hexChar

theorem isHexDigit_hexChar {d : ℕ} (h : d < 16) : IsHexDigit (hexChar d) d := by
  unfold IsHexDigit hexChar
  rw [UInt8.toNat_ofNat']
  split_ifs <;> omega

theorem isHex_hexField {n : ℕ} (h : n < 2 ^ 32) : IsHex (hexField n) n := by
  refine ⟨_, List.forall₂_map_left_iff.mpr (List.forall₂_same.mpr fun d hd => ?_), ?_⟩
  · refine isHexDigit_hexChar ?_
    simp only [List.mem_cons, List.not_mem_nil, or_false] at hd
    omega
  · simp only [List.reverse_cons, List.reverse_nil, List.nil_append, List.cons_append,
      Nat.ofDigits_cons, Nat.ofDigits_nil]
    omega

/-- `n` bytes of padding to a multiple of four. -/
def zeroPad (n : ℕ) : List UInt8 := List.replicate ((4 - n % 4) % 4) 0

/-- An entry as an archiver writes it; the fields that are not read are zero. -/
def CpioEntry.encode (name contents : List UInt8) : CpioEntry where
  header :=
    { cIno := hexField 0, cMode := hexField 0, cUid := hexField 0, cGid := hexField 0
      cNlink := hexField 0, cMtime := hexField 0, cFilesize := hexField contents.length
      cDevmajor := hexField 0, cDevminor := hexField 0, cRdevmajor := hexField 0
      cRdevminor := hexField 0, cNamesize := hexField (name.length + 1), cCheck := hexField 0 }
  name := name
  namePad := zeroPad (headerSize + (name.length + 1))
  contents := contents
  contentsPad := zeroPad contents.length

theorem zeroPad_spec (n : ℕ) : (zeroPad n).length < 4 ∧ 4 ∣ n + (zeroPad n).length := by
  unfold zeroPad
  rw [List.length_replicate]
  omega

theorem CpioEntry.encode_wellFormed {name contents : List UInt8} (hname : 0 ∉ name)
    (hlen : name.length + 1 < 2 ^ 32) (hcontents : contents.length < 2 ^ 32) :
    (encode name contents).WellFormed where
  fields := by
    have hfield : ∀ n < 2 ^ 32, (hexField n).length = 8 ∧ ∃ k, IsHex (hexField n) k :=
      fun n hn => ⟨rfl, n, isHex_hexField hn⟩
    have hzero := hfield 0 (by decide)
    have hsize := hfield _ hcontents
    have hnamesize := hfield _ hlen
    intro f hf
    simp only [CpioHeader.fields, encode, List.mem_cons, List.not_mem_nil, or_false] at hf
    rcases hf with rfl | rfl | rfl | rfl | rfl | rfl | rfl | rfl | rfl | rfl | rfl | rfl | rfl
    all_goals first | exact hzero | exact hsize | exact hnamesize
  namesize := isHex_hexField hlen
  filesize := isHex_hexField hcontents
  namePad := zeroPad_spec _
  contentsPad := zeroPad_spec _
  name := hname

/-- The files `a` and `b`. -/
def twoFiles : List CpioEntry := [.encode [0x61] [1, 2], .encode [0x62] [3, 4, 5, 6, 7]]

theorem named_twoFiles : ∀ e ∈ twoFiles, e.Named := by
  intro e he
  simp only [twoFiles, List.mem_cons, List.not_mem_nil, or_false] at he
  rcases he with rfl | rfl
  · exact ⟨CpioEntry.encode_wellFormed (by decide) (by decide) (by decide), by decide, by decide⟩
  · exact ⟨CpioEntry.encode_wellFormed (by decide) (by decide) (by decide), by decide, by decide⟩

/-- `b` is found behind `a`, and `c` is not found. -/
theorem cpioFind_of_encode :
    cpioFind (ofList 4 (archiveBytes twoFiles (.encode trailerName []) [])) 4 [0x62] ⟨0, 0⟩ 3 =
      some (0, ⟨232, 5⟩) ∧
    cpioFind (ofList 4 (archiveBytes twoFiles (.encode trailerName []) [])) 4 [0x63] ⟨7, 8⟩ 3 =
      some (-1, ⟨7, 8⟩) := by
  have htrailer : (CpioEntry.encode trailerName []).IsTrailer :=
    ⟨CpioEntry.encode_wellFormed (by decide) (by decide) (by decide), rfl, rfl⟩
  have hfit : 4 + (archiveBytes twoFiles (.encode trailerName []) []).length ≤ 2 ^ 64 := by
    decide +kernel
  have hfind : ∀ target : List UInt8, 0 ∉ target → ∀ out, _ := fun target htarget out =>
    @cpioFind_of_archive target 3 (.encode trailerName []) twoFiles [] 4 named_twoFiles htrailer
      ⟨1, rfl⟩ (by decide) hfit htarget out (by decide)
  constructor
  · obtain ⟨data, -, hdata, hb⟩ := (hfind [0x62] (by decide) ⟨0, 0⟩).1 [.encode [0x61] [1, 2]] _ []
      rfl (by decide) rfl
    have hplace : data = 232 := hdata
    subst hplace
    exact hb
  · exact (hfind [0x63] (by decide) ⟨7, 8⟩).2 (by decide)

end Boot
end OscKernel
