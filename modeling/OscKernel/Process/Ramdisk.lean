import OscKernel.Boot.Cpio
import OscKernel.Boot.Main
import OscKernel.Process.Images

/-!
# Programs from the ramdisk (`sched.c`, `syscall.c`, `dtb.c`, `cpio.c`)

`thread_spawn_user` and `sys_exec` are given a name.  They read the address of the ramdisk off the
device tree, walk the ramdisk for the name, and copy what they find, each time from the memory that
all processes share.

The tree and the ramdisk are taken to stay as they are: no call of `sys_uart_read` and no store of a
program outside its image, which may hit any other byte, hits one of theirs (`Flat.FairCall`).

* `Flat.findFile`, `Flat.call`: the calls with names.
* `HasFiles`: a device tree with a ramdisk, and the files on it.
* `ran_of_reachable`: in every run the first file with the name is what the process sees.

Three modules meet here: the walk over the tree finds the address of the ramdisk, the walk over the
archive finds the file, and the copy puts it into memory that the allocator has given.  Each reads
the memory that is there at the time of the call, and between two calls that memory has changed
everywhere but in the tree and the archive.  `HasFiles` is about these bytes alone (`ro`), so that
it holds in every state of a run in which nobody writes to them.
-/

namespace OscKernel

/-- The tree is also in a memory of which more can be read. -/
theorem Boot.FdtBlob.Located.mono {blob : Boot.FdtBlob} {base : ℕ} {m m' : Bytes.Memory}
    (h : blob.Located base m) (hle : ∀ x v, m x = some v → m' x = some v) : blob.Located base m' :=
  ⟨h.header.mono hle, h.tokens.mono hle, h.strings.mono hle⟩

namespace Creation

open Boot Bytes Transition
open Endian (span load)
open Rv64 (Word)
open Process (userStackSize)

namespace Flat

/-- All of the memory can be read. -/
def readable (s : Flat) : Memory := fun a => some (s.mem a)

/-- The calls of `dtb_getprop` and `cpio_find` in `thread_spawn_user` and `sys_exec`: the address
and the size of the file, if there is one. -/
def findFile (gDtbAddr fuel : ℕ) (s : Flat) (path : List UInt8) :
    Option (Option (ℕ × BitVec 32)) :=
  (dtbGetpropValue s.readable gDtbAddr (pathOf [chosenName]) initrdStartName fuel).bind
    fun initrd =>
      if initrd = 0 then some none
      else (cpioFind s.readable initrd path ⟨0, 0⟩ fuel).map fun (ret, out) =>
        if ret = 0 then some (out.data, BitVec.ofNat 32 out.size) else none

end Flat

/-- A call with a name, or another move. -/
inductive Call where
  | spawn (path : List UInt8) (sstatus : Word)
  | exec (path : List UInt8) (tf : Word)
  | move (m : Move)

/-- The names of files. -/
def Call.path? : Call → Option (List UInt8)
  | .spawn path _ => some path
  | .exec path _ => some path
  | .move _ => none

namespace Flat

/-- One call. -/
def call (gDtbAddr fuel : ℕ) (s : Flat) : Call → Option Flat
  | .spawn path sstatus =>
      (s.findFile gDtbAddr fuel path).bind fun file => s.step (.spawn file sstatus)
  | .exec path tf => (s.findFile gDtbAddr fuel path).bind fun file => s.step (.exec file tf)
  | .move m => s.step m

/-- A name is a string.  A move is fair as in `Flat.Fair`: nobody writes to the tree or the files,
and the kernel neither frees a block of a thread nor changes its pointers. -/
def FairCall (disk : Set ℕ) (s : Flat) : Call → Prop
  | .spawn path _ => 0 ∉ path
  | .exec path _ => 0 ∉ path
  | .move m => s.Fair disk m

/-- **The specification** of a call with a name, when the files are `es`. -/
def Ran (es : List CpioEntry) (mem₀ : ℕ → UInt8) (s : Flat) (i : Tid → Option (List UInt8)) :
    Call → Prop
  | .spawn path sstatus =>
      match es.find? fun e => decide (e.name = path) with
      | none => i = s.contents
      | some e =>
          let r := (s.sys.threadSpawnUser (some (BitVec.ofNat 64 e.contents.length)) sstatus).2
          if r = 0 then i = s.contents
          else ∃ stack, stack.length = userStackSize.toNat ∧ s.contents (.heap r) = none ∧
            i = Function.update s.contents (.heap r) (some (e.contents ++ stack))
  | .exec path tf =>
      match es.find? fun e => decide (e.name = path) with
      | none => i = s.contents
      | some e =>
          if (s.sys.sysExec (some (BitVec.ofNat 64 e.contents.length)) tf).2 = 0 then
            ∃ stack, stack.length = userStackSize.toNat ∧ (s.contents s.sys.current).isSome ∧
              i = Function.update s.contents s.sys.current (some (e.contents ++ stack))
          else i = s.contents
  | .move m => s.Spec mem₀ i m

end Flat

/-! ## The files -/

/-- The device tree at `gDtbAddr` says that there is a ramdisk at `initrd`, which has the files
`es`.  `ro` has the bytes of both. -/
structure HasFiles (ro : Memory) (gDtbAddr fuel initrd : ℕ) (blob : FdtBlob) (root : DtNode)
    (es : List CpioEntry) (trailer : CpioEntry) (rest : List UInt8) : Prop where
  tree : blob.WellFormed gDtbAddr root
  located : blob.Located gDtbAddr ro
  chosen : Unambiguous [chosenName] initrdStartName root
  size : blob.structBlock.length < 2 ^ 31
  number : root.number [chosenName] initrdStartName = initrd
  initrd_ne : initrd ≠ 0
  aligned : 4 ∣ initrd
  named : ∀ e ∈ es, e.Named
  isTrailer : trailer.IsTrailer
  archive : At ro initrd (archiveBytes es trailer rest)
  fits : initrd + (archiveBytes es trailer rest).length ≤ 2 ^ 64
  treeFuel : blob.structBlock.length < fuel
  fuel : es.length < fuel

section Files

variable {ro : Memory} {gDtbAddr fuel initrd : ℕ} {blob : FdtBlob} {root : DtNode}
  {es pre post : List CpioEntry} {e trailer : CpioEntry} {rest path : List UInt8} {s s' : Flat}
  {mem mem₀ : ℕ → UInt8} {a : ℕ} {l : List UInt8}

theorem load_of_at (h : At ro a l) (hmem : ∀ a v, ro a = some v → mem a = v) :
    load mem a l.length = l := by
  rw [at_iff_getElem] at h
  refine List.ext_getElem (by simp) fun i _ hi => ?_
  simp [load, hmem _ _ (h i hi)]

theorem span_subset_of_at (h : At ro a l) : span a l.length ⊆ {x | (ro x).isSome} := by
  rw [at_iff_getElem] at h
  rintro x ⟨hlow, hhigh⟩
  obtain ⟨i, rfl⟩ := Nat.exists_eq_add_of_le hlow
  simp [h i (by omega)]

/-- A file that is found, as a copy sees it. -/
theorem file_of_at (h : At ro a l) (hlt : l.length < 2 ^ 32)
    (hmem : ∀ a v, ro a = some v → mem a = v) {f : ℕ × BitVec 32}
    (hf : f ∈ some (a, BitVec.ofNat 32 l.length)) :
    span f.1 f.2.toNat ⊆ {x | (ro x).isSome} ∧ load mem f.1 f.2.toNat = l := by
  obtain rfl := Option.some.inj hf
  have hsize : (BitVec.ofNat 32 l.length).toNat = l.length := Nat.mod_eq_of_lt hlt
  rw [hsize]
  exact ⟨span_subset_of_at h, load_of_at h hmem⟩

/-- A file is where the entries before it end. -/
theorem at_contents (he : e.WellFormed)
    (hat : At ro a (archiveBytes (pre ++ e :: post) trailer rest)) :
    At ro (a + (pre.flatMap CpioEntry.bytes).length + e.contentsOffset) e.contents := by
  have hsplit : archiveBytes (pre ++ e :: post) trailer rest = pre.flatMap CpioEntry.bytes ++
      (e.bytes ++ archiveBytes post trailer rest) := by
    simp [archiveBytes, List.append_assoc]
  rw [hsplit, at_append, at_append] at hat
  exact (he.reads hat.2.1).contents

/-- The size of a file is a number of eight digits. -/
theorem contents_lt (he : e.WellFormed) : e.contents.length < 2 ^ 32 := by
  have hlen := (he.fields e.header.cFilesize (by simp [CpioHeader.fields])).1
  have hlt := he.filesize.lt
  rw [hlen] at hlt
  exact hlt.trans_le (by decide)

/-- **The lookup**: the first file with the name, in a memory that has the tree and the ramdisk. -/
theorem HasFiles.findFile (h : HasFiles ro gDtbAddr fuel initrd blob root es trailer rest)
    (hmem : ∀ a v, ro a = some v → s.mem a = v) (hpath : 0 ∉ path) :
    (es.find? (fun e => decide (e.name = path)) = none ∧
      s.findFile gDtbAddr fuel path = some none) ∨
    ∃ e data, es.find? (fun e => decide (e.name = path)) = some e ∧ At ro data e.contents ∧
      e.contents.length < 2 ^ 32 ∧ s.findFile gDtbAddr fuel path =
        some (some (data, BitVec.ofNat 32 e.contents.length)) := by
  have hle : ∀ a v, ro a = some v → s.readable a = some v := fun a v hv =>
    congrArg some (hmem a v hv)
  have hvalue := dtbGetpropValue_eq h.tree (h.located.mono hle) (by decide) (by decide) h.chosen
    h.size h.treeFuel
  obtain ⟨hfound, hmissing⟩ := @cpioFindLoop_archive s.readable path ⟨0, 0⟩ fuel initrd trailer es
    rest h.named h.isTrailer (h.archive.mono hle) h.aligned h.fits hpath h.fuel
  unfold Flat.findFile
  rw [hvalue, Option.bind_some, h.number, if_neg h.initrd_ne, cpioFind, if_neg h.initrd_ne]
  cases hfind : es.find? fun e => decide (e.name = path) with
  | none =>
    refine Or.inl ⟨rfl, ?_⟩
    rw [hmissing fun e he => by simpa using List.find?_eq_none.mp hfind e he]
    rfl
  | some e =>
    obtain ⟨hname, pre, post, rfl, hpre⟩ := List.find?_eq_some_iff_append.mp hfind
    have he : e.Named := h.named e (by simp)
    refine Or.inr ⟨e, _, rfl, at_contents he.1 h.archive, contents_lt he.1, ?_⟩
    rw [hfound pre e post rfl (by simpa using hpre) (by simpa using hname)]
    rfl

/-! ## Calls -/

variable {b₀ : Buddy} {c : Call}

theorem sysExec_none {s : System} {tf : Word} : (s.sysExec none tf).2 = -1 := by
  unfold System.sysExec
  dsimp only
  split_ifs <;> rfl

/-- The size of a file that is found. -/
theorem fileSize_ofNat {data n : ℕ} (hn : n < 2 ^ 32) :
    System.fileSize (some (data, BitVec.ofNat 32 n)) = some (BitVec.ofNat 64 n) := by
  refine congrArg some (BitVec.eq_of_toNat_eq ?_)
  simp only [BitVec.toNat_setWidth, BitVec.toNat_ofNat]
  omega

/-- **Every call** does what is specified; a lookup comes to an end. -/
theorem HasFiles.call (h : HasFiles ro gDtbAddr fuel initrd blob root es trailer rest)
    (hmem₀ : ∀ a v, ro a = some v → mem₀ a = v) (hinv : s.Inv b₀ {x | (ro x).isSome} mem₀)
    (hoff : OffHeap b₀ {x | (ro x).isSome}) (hfair : s.FairCall {x | (ro x).isSome} c) :
    (c.path?.isSome → (s.call gDtbAddr fuel c).isSome) ∧
      ∀ s', s.call gDtbAddr fuel c = some s' →
        s'.Inv b₀ {x | (ro x).isSome} mem₀ ∧ s.Ran es mem₀ s'.contents c := by
  have hmem : ∀ a v, ro a = some v → s.mem a = v := fun a v hv =>
    (hinv.files a (by simp [hv])).trans (hmem₀ a v hv)
  cases c with
  | move m =>
    refine ⟨fun hpath => absurd hpath Bool.false_ne_true, fun s' hs => ?_⟩
    exact hinv.step hoff hfair hs
  | spawn path sstatus =>
    rcases h.findFile hmem hfair with ⟨hfind, hfile⟩ | ⟨e, data, hfind, hat, hlt, hfile⟩
    · simp only [Flat.call, Flat.Ran, hfile, hfind, Option.bind_some]
      refine ⟨fun _ => rfl, fun s' hs => ?_⟩
      obtain ⟨hinv', hspec⟩ := hinv.spawn hoff (fun f hf => absurd hf (by simp)) hs
      simp only [Flat.Spec] at hspec
      rw [if_pos (show (s.sys.threadSpawnUser (System.fileSize none) sstatus).2 = 0 from rfl)]
        at hspec
      exact ⟨hinv', hspec⟩
    · simp only [Flat.call, Flat.Ran, hfile, hfind, Option.bind_some]
      refine ⟨fun _ => rfl, fun s' hs => ?_⟩
      obtain ⟨hinv', hspec⟩ := hinv.spawn hoff (fun f hf => (file_of_at hat hlt hmem₀ hf).1) hs
      refine ⟨hinv', ?_⟩
      simp only [Flat.Spec] at hspec
      rw [fileSize_ofNat hlt] at hspec
      split_ifs at hspec ⊢
      · exact hspec
      · obtain ⟨f, hf, stack, hstack, hnone, hcontents⟩ := hspec
        rw [(file_of_at hat hlt hmem₀ hf).2] at hcontents
        exact ⟨stack, hstack, hnone, hcontents⟩
  | exec path tf =>
    rcases h.findFile hmem hfair with ⟨hfind, hfile⟩ | ⟨e, data, hfind, hat, hlt, hfile⟩
    · simp only [Flat.call, Flat.Ran, hfile, hfind, Option.bind_some]
      refine ⟨fun _ => rfl, fun s' hs => ?_⟩
      obtain ⟨hinv', hspec⟩ := hinv.exec hoff (fun f hf => absurd hf (by simp)) hs
      simp only [Flat.Spec] at hspec
      rw [show System.fileSize none = none from rfl, sysExec_none, if_neg (by decide)] at hspec
      exact ⟨hinv', hspec⟩
    · simp only [Flat.call, Flat.Ran, hfile, hfind, Option.bind_some]
      refine ⟨fun _ => rfl, fun s' hs => ?_⟩
      obtain ⟨hinv', hspec⟩ := hinv.exec hoff (fun f hf => (file_of_at hat hlt hmem₀ hf).1) hs
      refine ⟨hinv', ?_⟩
      simp only [Flat.Spec] at hspec
      rw [fileSize_ofNat hlt] at hspec
      split_ifs at hspec ⊢
      · obtain ⟨f, hf, stack, hstack, hsome, hcontents⟩ := hspec
        rw [(file_of_at hat hlt hmem₀ hf).2] at hcontents
        exact ⟨stack, hstack, hsome, hcontents⟩
      · exact hspec

/-- **A name is the file that the archive has under it.**  The device tree and the ramdisk lie in
what boot reserved or outside the memory of the allocators, a region of whole pages that ends below
`2 ^ 64`.  The tree is well formed, its struct block is shorter than `2 ^ 31`, and the search for
`linux,initrd-start` meets nothing else first; the ramdisk is at an address that is not `0` and a
multiple of `4` (`HasFiles`).  In every run of fair calls, in which nobody writes to either
(`Flat.FairCall`), and whatever requests fail, `thread_spawn_user` and `sys_exec` come to an end,
and what they make of the contents of all processes is what `Flat.Ran` says of the first file with
the name. -/
theorem ran_of_reachable (fa : ℕ → ℤ) {base size : ℕ} (hbase : pageSize ∣ base)
    (hend : base + size < 2 ^ 64) {reserves : List (ℕ × ℕ)}
    (hentry : ∀ e ∈ reserves, StartupClient.Entry base size e)
    (h : HasFiles ro gDtbAddr fuel initrd blob root es trailer rest)
    (hro : ∀ x, (ro x).isSome → base ≤ x → x < base + size →
      ∃ e ∈ reserves, x ∈ StartupClient.bytes e)
    (pools : ℕ → Pool) (table : ℕ → ℤ) (mem : ℕ → ℕ) {x : Thread}
    (hx : ∀ q, x.part .bootstrap q = none) (addr : Word)
    (hmem₀ : ∀ a v, ro a = some v → mem₀ a = v)
    (hs : Reachable (Flat.call gDtbAddr fuel) (Flat.FairCall {x | (ro x).isSome})
      ⟨.boot (bootHeap fa base size reserves pools table mem) x addr, mem₀⟩ s)
    (hfair : s.FairCall {x | (ro x).isSome} c) :
    (c.path?.isSome → (s.call gDtbAddr fuel c).isSome) ∧
      ∀ s', s.call gDtbAddr fuel c = some s' → s.Ran es mem₀ s'.contents c := by
  have hoff := offHeap_boot fa hbase hend hentry hro pools table mem
  have hstart := Flat.inv_boot fa hbase hend reserves pools table mem hx addr
    {x | (ro x).isSome} mem₀
  have hinv := hs.invariant hstart fun s c s' hinv hfair hcall =>
    ((h.call hmem₀ hinv hoff hfair).2 s' hcall).1
  obtain ⟨htotal, hran⟩ := h.call hmem₀ hinv hoff hfair
  exact ⟨htotal, fun s' hcall => (hran s' hcall).2⟩

end Files

/-- A file `a` of two bytes. -/
def smallArchive : List UInt8 := archiveBytes [.encode [0x61] [1, 2]] (.encode trailerName []) []

/-- A ramdisk behind 64 pages of memory, and a device tree that says so. -/
def smallRo : Memory := fun a =>
  (ofList 0x80040000 smallArchive a).or (ofList 0x90000000 megabyte.bytes a)

theorem smallRo_of_lt {x : ℕ} (hx : x < 0x80040000) : smallRo x = none := by
  unfold smallRo ofList
  rw [if_neg (by omega), if_neg (by omega)]
  rfl

theorem smallRo_of_tree {x : ℕ} {v : UInt8} (h : ofList 0x90000000 megabyte.bytes x = some v) :
    smallRo x = some v := by
  have hlen : smallArchive.length ≤ 1000 := by decide +kernel
  have hlow : 0x90000000 ≤ x := by
    by_contra hlt
    rw [ofList, if_neg hlt] at h
    exact absurd h (by simp)
  have hnone : ofList 0x80040000 smallArchive x = none := by
    rw [ofList, if_pos (by omega)]
    exact List.getElem?_eq_none (by omega)
  rw [smallRo, hnone, h]
  rfl

theorem hasFiles_small : HasFiles smallRo 0x90000000 173 0x80040000 megabyte megabyteRoot
    [.encode [0x61] [1, 2]] (.encode trailerName []) [] where
  tree :=
    { base_ne := by decide
      magic := megabyte_wellFormed.magic
      words := megabyte_wellFormed.words
      size := megabyte_wellFormed.size
      aligned := by decide
      fits := by rw [length_megabyte]; decide
      tokens := megabyte_wellFormed.tokens
      tree := megabyte_wellFormed.tree }
  located := (FdtBlob.located_bytes rfl (by rw [length_megabyte]; rfl)).mono fun _ _ h =>
    smallRo_of_tree h
  chosen := unambiguous_iff.mpr rfl
  size := by rw [length_megabyte]; decide
  number := by decide +kernel
  initrd_ne := by decide
  aligned := by decide
  named := List.forall_mem_singleton.mpr
    ⟨CpioEntry.encode_wellFormed (by decide) (by decide) (by decide), by decide, by decide⟩
  isTrailer := ⟨CpioEntry.encode_wellFormed (by decide) (by decide) (by decide), rfl, rfl⟩
  archive := (at_ofList _ _).mono fun x v h => by
    have harchive : ofList 0x80040000 smallArchive x = some v := h
    simp [smallRo, harchive]
  fits := by decide +kernel
  treeFuel := by rw [length_megabyte]; decide
  fuel := by decide

/-- The state after boot. -/
def smallStart : Flat := ⟨.boot System.smallHeap .zero 0, fun a => (smallRo a).getD 0⟩

/-- The file is started. -/
theorem ran_of_archive : ∃ s', smallStart.call 0x90000000 173 (.spawn [0x61] 0) = some s' ∧
    smallStart.Ran [.encode [0x61] [1, 2]] smallStart.mem s'.contents (.spawn [0x61] 0) := by
  have hs : Reachable (Flat.call 0x90000000 173) (Flat.FairCall {x | (smallRo x).isSome})
      ⟨.boot (bootHeap (fun _ => 0) 0x80000000 0x40000 [] (fun _ => ⟨0, 0⟩) (fun _ => 0) fun _ => 0)
        .zero 0, smallStart.mem⟩ smallStart := by
    rw [System.bootHeap_small]
    exact Reachable.refl _
  have hro : ∀ x, (smallRo x).isSome → 0x80000000 ≤ x → x < 0x80000000 + 0x40000 →
      ∃ e ∈ ([] : List (ℕ × ℕ)), x ∈ StartupClient.bytes e := by
    intro x hx _ hhigh
    rw [smallRo_of_lt hhigh] at hx
    exact absurd hx Bool.false_ne_true
  have hpart : ∀ q, Thread.zero.part .bootstrap q = none := by
    intro q
    cases q <;> rfl
  have hmem : ∀ a v, smallRo a = some v → smallStart.mem a = v := by
    intro a v h
    simp [smallStart, h]
  have hfair : smallStart.FairCall {x | (smallRo x).isSome} (.spawn [0x61] 0) :=
    show (0 : UInt8) ∉ [0x61] by decide
  obtain ⟨htotal, hran⟩ := ran_of_reachable (fun _ => 0) (by decide) (by decide)
    (fun _ he => absurd he List.not_mem_nil) hasFiles_small hro _ _ _ hpart 0 hmem hs hfair
  -- nothing is computed from here on
  generalize smallStart = z at htotal hran ⊢
  obtain ⟨s', hcall⟩ := Option.isSome_iff_exists.mp (htotal rfl)
  exact ⟨s', hcall, hran s' hcall⟩

end Creation
end OscKernel
