import OscKernel.Boot.Cpio

/-!
# The three walks over the ramdisk (`cpio.c`)

`cpio_ls` and `cpio_cat`, beside `cpio_find`, over any memory, whether there is an archive in it or
not.  What they print is the list of their calls of `uart_puts` and `uart_putc`.

* `Visits`: the entries that a walk comes to, in this order.
* `exists_visits_of_cpioLsLoop`, `Visits.cpioFindLoop`, `Visits.cpioCatLoop`: what each walk makes
  of them.
* `cpioFind_agrees`: the three walks agree.

## One trace for three loops

The three loops are written out three times in the source, and each leaves at another place:
`cpio_ls` goes to the trailer, the other two stop at the first entry with the name.  `Visits` is
what they share.  It is a relation on the memory and an address, with one constructor for each way
in which a walk ends, and says nothing of an archive.

That `cpio_ls` comes to an end gives the trace; the trace then runs the other two loops, whose
rounds are among its rounds.  No fuel has to be found for them: a walk that stops earlier needs no
more than the one that goes to the trailer.

## The name `.`

`cpio_ls` does not print an entry that is called `.`, and the other two find it like any other.
This is the only difference between what is listed and what can be found, and the theorem says so.
Without an archive `cpio_ls` prints a message, and so does `cpio_cat`; neither is a name, and
neither is a byte of a file.
-/

namespace OscKernel
namespace Boot

open Bytes

/-! ## `cpio.c` -/

/-- A call of the console. -/
inductive ConsoleCall where
  /-- `uart_puts` of a string of the program. -/
  | text (s : String)
  /-- `uart_puts` of the name of a file. -/
  | name (s : List UInt8)
  /-- `uart_putc`. -/
  | putc (c : UInt8)
  deriving DecidableEq

/-- `"."`. -/
def dotName : List UInt8 := [0x2e]

/-- The loop of `cpio_ls`, at most `fuel` rounds with names of fewer than `chars` bytes. -/
def cpioLsLoop (m : Memory) (chars : ℕ) : ℕ → ℕ → Option (List ConsoleCall)
  | 0, _ => none
  | fuel + 1, ptr =>
      (take m ptr 6).bind fun magic =>
      if magic ≠ cMagic then some [.text "cpio: Invalid magic.\n"]
      else
        (take m (ptr + namesizeOffset) 8).bind fun cNamesize =>
        (take m (ptr + filesizeOffset) 8).bind fun cFilesize =>
        let filename := ptr + headerSize
        (strEq m filename trailerName).bind fun last =>
        if last then some []
        else
          (strEq m filename dotName).bind fun dot =>
          let puts :=
            if dot then some []
            else (readStr m chars filename).map fun s => [.name s, .text "\n"]
          puts.bind fun calls =>
          let nextHdr := align4 (u64 (filename + hex2int cNamesize))
          let nextHdr := align4 (u64 (nextHdr + hex2int cFilesize))
          (cpioLsLoop m chars fuel nextHdr).map (calls ++ ·)

/-- `cpio_ls`. -/
def cpioLs (m : Memory) (archive fuel chars : ℕ) : Option (List ConsoleCall) :=
  if archive = 0 then some [.text "cpio: No initrd found.\n"] else cpioLsLoop m chars fuel archive

/-- What `cpio_cat` does with the file that it has found. -/
def cpioCatFile (m : Memory) (data filesize : ℕ) : Option (List ConsoleCall) :=
  (take m data filesize).bind fun bytes =>
  if filesize > 0 then
    (m (data + (filesize - 1))).map fun c =>
      bytes.map .putc ++ if c ≠ 0x0a then [.putc 0x0a] else []
  else some (bytes.map .putc)

/-- The loop of `cpio_cat`, at most `fuel` rounds. -/
def cpioCatLoop (m : Memory) (target : List UInt8) : ℕ → ℕ → Option (ℤ × List ConsoleCall)
  | 0, _ => none
  | fuel + 1, ptr =>
      (take m ptr 6).bind fun magic =>
      if magic ≠ cMagic then some (-1, [.text "cpio: Invalid magic.\n"])
      else
        (take m (ptr + namesizeOffset) 8).bind fun cNamesize =>
        (take m (ptr + filesizeOffset) 8).bind fun cFilesize =>
        let filename := ptr + headerSize
        (strEq m filename trailerName).bind fun last =>
        if last then
          some (-1, [.text "cat: ", .name target, .text ": No such file or directory\n"])
        else
          let fileData := align4 (u64 (filename + hex2int cNamesize))
          (strEq m filename target).bind fun found =>
          if found then (cpioCatFile m fileData (hex2int cFilesize)).map fun calls => (0, calls)
          else cpioCatLoop m target fuel (align4 (u64 (fileData + hex2int cFilesize)))

/-- `cpio_cat`: the return value and the calls of the console. -/
def cpioCat (m : Memory) (archive : ℕ) (target : List UInt8) (fuel : ℕ) :
    Option (ℤ × List ConsoleCall) :=
  if archive = 0 then some (-1, [.text "cpio: No initrd found.\n"])
  else cpioCatLoop m target fuel archive

/-- The names that `cpio_ls` passes to `uart_puts`. -/
def entryNames (calls : List ConsoleCall) : List (List UInt8) :=
  calls.filterMap fun
    | .name s => some s
    | _ => none

/-! ## The entries -/

/-- An entry that a walk comes to: its name, and where its contents are said to be. -/
structure Visit where
  name : List UInt8
  file : CpioOut

/-- A header with the right magic at `ptr`, a name that is a string, and where the next header is
looked for. -/
structure VisitAt (m : Memory) (ptr : ℕ) (v : Visit) (next : ℕ) : Prop where
  magic : take m ptr 6 = some cMagic
  namesize : ∃ cNamesize, take m (ptr + namesizeOffset) 8 = some cNamesize ∧
    v.file.data = align4 (u64 (ptr + headerSize + hex2int cNamesize))
  filesize : ∃ cFilesize, take m (ptr + filesizeOffset) 8 = some cFilesize ∧
    v.file.size = hex2int cFilesize
  name : At m (ptr + headerSize) (v.name ++ [0])
  noNul : 0 ∉ v.name
  notTrailer : v.name ≠ trailerName
  next_eq : next = align4 (u64 (v.file.data + v.file.size))

/-- A walk that ends comes from `ptr` to the entries `vs`. -/
inductive Visits (m : Memory) : ℕ → List Visit → Prop where
  | badMagic {ptr : ℕ} {magic : List UInt8} (htake : take m ptr 6 = some magic)
      (hmagic : magic ≠ cMagic) : Visits m ptr []
  | trailer {ptr : ℕ} {cNamesize cFilesize : List UInt8} (hmagic : take m ptr 6 = some cMagic)
      (hnamesize : take m (ptr + namesizeOffset) 8 = some cNamesize)
      (hfilesize : take m (ptr + filesizeOffset) 8 = some cFilesize)
      (hlast : strEq m (ptr + headerSize) trailerName = some true) : Visits m ptr []
  | entry {ptr next : ℕ} {v : Visit} {vs : List Visit} (hv : VisitAt m ptr v next)
      (hvs : Visits m next vs) : Visits m ptr (v :: vs)

section Walk

variable {m : Memory} {ptr fuel chars : ℕ} {target : List UInt8} {out : CpioOut}
  {calls : List ConsoleCall} {vs : List Visit} {v : Visit} {next : ℕ}

theorem trailerName_noNul : 0 ∉ trailerName := by decide

theorem VisitAt.strEq (hv : VisitAt m ptr v next) {b : List UInt8} (hb : 0 ∉ b) :
    strEq m (ptr + headerSize) b = some (decide (v.name = b)) :=
  strEq_of_at hv.name hv.noNul hb

/-- What `cpio_ls` prints for an entry. -/
theorem exists_name_of_puts {filename : ℕ} {dot : Bool}
    (hdot : Bytes.strEq m filename dotName = some dot)
    (h : (if dot then some []
      else (readStr m chars filename).map fun s => [.name s, .text "\n"]) = some calls) :
    ∃ name, At m filename (name ++ [0]) ∧ 0 ∉ name ∧
      entryNames calls = [name].filter (· ≠ dotName) := by
  cases dot with
  | true =>
    obtain rfl : [] = calls := Option.some.inj h
    exact ⟨dotName, at_of_strEq hdot (by decide), by decide, rfl⟩
  | false =>
    obtain ⟨name, hname, rfl⟩ := Option.map_eq_some_iff.mp h
    obtain ⟨hat, hnul⟩ := at_of_readStr hname
    refine ⟨name, hat, hnul, ?_⟩
    rw [strEq_of_at hat hnul (by decide)] at hdot
    have hne : name ≠ dotName := of_decide_eq_false (Option.some.inj hdot)
    simp [entryNames, hne]

/-- **The list**: `cpio_ls` passes on the names of the entries that are not `.`. -/
theorem exists_visits_of_cpioLsLoop (h : cpioLsLoop m chars fuel ptr = some calls) :
    ∃ vs, Visits m ptr vs ∧ vs.length < fuel ∧
      entryNames calls = (vs.map Visit.name).filter (· ≠ dotName) := by
  induction fuel generalizing ptr calls with
  | zero => cases h
  | succ fuel ih =>
    rw [cpioLsLoop] at h
    obtain ⟨magic, hmagic, h⟩ := Option.bind_eq_some_iff.mp h
    by_cases hne : magic ≠ cMagic
    · rw [if_pos hne] at h
      cases h
      exact ⟨[], .badMagic hmagic hne, Nat.succ_pos fuel, rfl⟩
    · rw [if_neg hne] at h
      obtain rfl := not_not.mp hne
      obtain ⟨cNamesize, hnamesize, h⟩ := Option.bind_eq_some_iff.mp h
      obtain ⟨cFilesize, hfilesize, h⟩ := Option.bind_eq_some_iff.mp h
      obtain ⟨last, hlast, h⟩ := Option.bind_eq_some_iff.mp h
      cases last with
      | true =>
        cases h
        exact ⟨[], .trailer hmagic hnamesize hfilesize hlast, Nat.succ_pos fuel, rfl⟩
      | false =>
        obtain ⟨dot, hdot, h⟩ := Option.bind_eq_some_iff.mp h
        obtain ⟨puts, hputs, h⟩ := Option.bind_eq_some_iff.mp h
        obtain ⟨calls, hcalls, rfl⟩ := Option.map_eq_some_iff.mp h
        obtain ⟨name, hat, hnul, hnames⟩ := exists_name_of_puts hdot hputs
        obtain ⟨vs, hvs, hlen, heq⟩ := ih hcalls
        have htrailer : name ≠ trailerName := by
          rw [strEq_of_at hat hnul trailerName_noNul] at hlast
          exact of_decide_eq_false (Option.some.inj hlast)
        refine ⟨⟨name, _, _⟩ :: vs, .entry ⟨hmagic, ⟨_, hnamesize, rfl⟩, ⟨_, hfilesize, rfl⟩, hat,
          hnul, htrailer, rfl⟩ hvs, Nat.succ_lt_succ hlen, ?_⟩
        rw [entryNames, List.filterMap_append]
        simp only [entryNames] at hnames heq
        rw [hnames, heq, List.map_cons, ← List.filter_append]
        rfl

/-- One round of `cpio_find` at an entry. -/
theorem VisitAt.cpioFindLoop (hv : VisitAt m ptr v next) (htarget : 0 ∉ target) :
    Boot.cpioFindLoop m target out (fuel + 1) ptr =
      if v.name = target then some (0, v.file) else Boot.cpioFindLoop m target out fuel next := by
  obtain ⟨cNamesize, hnamesize, hdata⟩ := hv.namesize
  obtain ⟨cFilesize, hfilesize, hsize⟩ := hv.filesize
  rw [Boot.cpioFindLoop, hv.magic, Option.bind_some, if_neg (not_not.mpr rfl), hnamesize,
    Option.bind_some, hfilesize, Option.bind_some]
  dsimp only
  rw [hv.strEq trailerName_noNul, Option.bind_some, decide_eq_false hv.notTrailer, ← hdata,
    ← hsize, hv.strEq htarget, Option.bind_some, ← hv.next_eq]
  simp

/-- One round of `cpio_cat` at an entry. -/
theorem VisitAt.cpioCatLoop (hv : VisitAt m ptr v next) (htarget : 0 ∉ target) :
    Boot.cpioCatLoop m target (fuel + 1) ptr =
      if v.name = target then (cpioCatFile m v.file.data v.file.size).map fun calls => (0, calls)
      else Boot.cpioCatLoop m target fuel next := by
  obtain ⟨cNamesize, hnamesize, hdata⟩ := hv.namesize
  obtain ⟨cFilesize, hfilesize, hsize⟩ := hv.filesize
  rw [Boot.cpioCatLoop, hv.magic, Option.bind_some, if_neg (not_not.mpr rfl), hnamesize,
    Option.bind_some, hfilesize, Option.bind_some]
  dsimp only
  rw [hv.strEq trailerName_noNul, Option.bind_some, decide_eq_false hv.notTrailer, ← hdata,
    ← hsize, hv.strEq htarget, Option.bind_some, ← hv.next_eq]
  simp

/-- **The search**: `cpio_find` returns the first entry with the name. -/
theorem Visits.cpioFindLoop (hvs : Visits m ptr vs) (hfuel : vs.length < fuel)
    (htarget : 0 ∉ target) :
    Boot.cpioFindLoop m target out fuel ptr =
      some (((vs.find? fun v => v.name = target).map fun v => (0, v.file)).getD (-1, out)) := by
  induction hvs generalizing fuel with
  | badMagic htake hmagic =>
    obtain ⟨fuel, rfl⟩ := Nat.exists_eq_add_of_lt hfuel
    simp [Boot.cpioFindLoop, htake, hmagic]
  | trailer hmagic hnamesize hfilesize hlast =>
    obtain ⟨fuel, rfl⟩ := Nat.exists_eq_add_of_lt hfuel
    simp [Boot.cpioFindLoop, hmagic, hnamesize, hfilesize, hlast]
  | @entry ptr next v vs hv hvs ih =>
    obtain ⟨fuel, rfl⟩ : ∃ k, fuel = k + 1 := ⟨fuel - 1, by omega⟩
    rw [hv.cpioFindLoop htarget, ih (Nat.lt_of_succ_lt_succ hfuel)]
    by_cases hname : v.name = target <;> simp [hname]

/-- **The printing**: `cpio_cat` prints the first entry with the name. -/
theorem Visits.cpioCatLoop (hvs : Visits m ptr vs) (hfuel : vs.length < fuel)
    (htarget : 0 ∉ target) :
    (∀ v, (vs.find? fun v => v.name = target) = some v →
      Boot.cpioCatLoop m target fuel ptr =
        (cpioCatFile m v.file.data v.file.size).map fun calls => (0, calls)) ∧
    ((vs.find? fun v => v.name = target) = none →
      ∃ calls, Boot.cpioCatLoop m target fuel ptr = some (-1, calls) ∧ ∀ c, .putc c ∉ calls) := by
  induction hvs generalizing fuel with
  | badMagic htake hmagic =>
    obtain ⟨fuel, rfl⟩ := Nat.exists_eq_add_of_lt hfuel
    refine ⟨nofun, fun _ => ?_⟩
    simp [Boot.cpioCatLoop, htake, hmagic]
  | trailer hmagic hnamesize hfilesize hlast =>
    obtain ⟨fuel, rfl⟩ := Nat.exists_eq_add_of_lt hfuel
    refine ⟨nofun, fun _ => ?_⟩
    simp [Boot.cpioCatLoop, hmagic, hnamesize, hfilesize, hlast]
  | @entry ptr next v vs hv hvs ih =>
    obtain ⟨fuel, rfl⟩ : ∃ k, fuel = k + 1 := ⟨fuel - 1, by omega⟩
    obtain ⟨hsome, hnone⟩ := ih (Nat.lt_of_succ_lt_succ hfuel)
    rw [hv.cpioCatLoop htarget]
    by_cases hname : v.name = target
    · simp [hname]
    · rw [if_neg hname, List.find?_cons_of_neg (by simpa using hname)]
      exact ⟨hsome, hnone⟩

end Walk

/-! ## Any memory

Every address has a byte.  Where addresses are taken modulo `2 ^ 64`, the bytes from `2 ^ 64` on
are those from `0` on. -/

section Agree

variable {content : ℕ → UInt8} {archive fuel chars : ℕ} {calls : List ConsoleCall}
  {target : List UInt8}

/-- The contents of a file. -/
def CpioOut.bytes (content : ℕ → UInt8) (file : CpioOut) : List UInt8 :=
  (List.range file.size).map fun i => content (file.data + i)

theorem take_content (data size : ℕ) :
    take (fun a => some (content a)) data size =
      some ((List.range size).map fun i => content (data + i)) := by
  induction size generalizing data with
  | zero => rfl
  | succ size ih =>
    rw [take, Option.bind_some, ih, List.range_succ_eq_map]
    simp [Function.comp_def, Nat.add_right_comm, Nat.add_assoc]

/-- `cpio_cat` prints the contents, and a newline when there are any and they do not end in one. -/
theorem cpioCatFile_eq (file : CpioOut) :
    cpioCatFile (fun a => some (content a)) file.data file.size =
      some ((file.bytes content ++
        if file.bytes content ≠ [] ∧ (file.bytes content).getLast? ≠ some 0x0a then [0x0a]
        else []).map .putc) := by
  obtain ⟨data, size⟩ := file
  rw [cpioCatFile, take_content, Option.bind_some]
  cases size with
  | zero => rfl
  | succ size =>
    have hlast : (CpioOut.bytes content ⟨data, size + 1⟩).getLast? =
        some (content (data + size)) := by
      simp [CpioOut.bytes, List.range_succ]
    have hne : CpioOut.bytes content ⟨data, size + 1⟩ ≠ [] := by
      simp [CpioOut.bytes, List.range_succ]
    rw [hlast, if_pos (Nat.succ_pos size), Nat.add_sub_cancel, Option.map_some, List.map_append]
    by_cases hc : content (data + size) = 0x0a
    · simp [hc, CpioOut.bytes]
    · simp [hc, CpioOut.bytes]

/-- **The three walks agree** on every memory in which `cpio_ls` comes to an end: `cpio_find` and
`cpio_cat` find the same names, those that `cpio_ls` passes to `uart_puts` and possibly `.`, and
`cpio_cat` prints what `cpio_find` reports. -/
theorem cpioFind_agrees (harchive : archive ≠ 0)
    (hls : cpioLs (fun a => some (content a)) archive fuel chars = some calls) (target : List UInt8)
    (htarget : 0 ∉ target) (out : CpioOut) :
    ∃ r file r' printed,
      cpioFind (fun a => some (content a)) archive target out fuel = some (r, file) ∧
      cpioCat (fun a => some (content a)) archive target fuel = some (r', printed) ∧
      (target ≠ dotName → (r = 0 ↔ target ∈ entryNames calls)) ∧ (r' = 0 ↔ r = 0) ∧
      (r = 0 → printed = (file.bytes content ++
        if file.bytes content ≠ [] ∧ (file.bytes content).getLast? ≠ some 0x0a then [0x0a]
        else []).map .putc) ∧
      (r ≠ 0 → ∀ c, .putc c ∉ printed) := by
  rw [cpioLs, if_neg harchive] at hls
  obtain ⟨vs, hvs, hfuel, hnames⟩ := exists_visits_of_cpioLsLoop hls
  have hmem : target ≠ dotName → (target ∈ entryNames calls ↔ ∃ v ∈ vs, v.name = target) := by
    intro hdot
    simp [hnames, hdot]
  have hfind : cpioFindLoop (fun a => some (content a)) target out fuel archive = _ :=
    hvs.cpioFindLoop hfuel htarget
  obtain ⟨hsome, hnone⟩ := hvs.cpioCatLoop hfuel htarget
  rw [cpioFind, if_neg harchive, cpioCat, if_neg harchive]
  cases hv : vs.find? fun v => v.name = target with
  | some v =>
    have hmatch : v ∈ vs ∧ v.name = target :=
      ⟨List.mem_of_find?_eq_some hv, by simpa using List.find?_some hv⟩
    have hcat := hsome v hv
    rw [cpioCatFile_eq, Option.map_some] at hcat
    rw [hv] at hfind
    refine ⟨0, v.file, 0, _, hfind, hcat, ?_, Iff.rfl, fun _ => rfl, fun h => absurd rfl h⟩
    exact fun hdot => iff_of_true rfl ((hmem hdot).mpr ⟨v, hmatch⟩)
  | none =>
    obtain ⟨printed, hcat, hputc⟩ := hnone hv
    rw [hv] at hfind
    refine ⟨-1, out, -1, printed, hfind, hcat, ?_, Iff.rfl, fun h => by simp at h, fun _ => hputc⟩
    intro hdot
    have hno : ¬ ∃ v ∈ vs, v.name = target := by simpa using hv
    exact iff_of_false (by decide) fun h => hno ((hmem hdot).mp h)

/-- The second of two files. -/
theorem cpioFind_agrees_encode :
    let bytes := archiveBytes twoFiles (.encode trailerName []) []
    let content : ℕ → UInt8 := fun a => (ofList 4 bytes a).getD 0
    ∃ calls r file r' printed,
      cpioLs (fun a => some (content a)) 4 3 2 = some calls ∧
      cpioFind (fun a => some (content a)) 4 [0x62] ⟨0, 0⟩ 3 = some (r, file) ∧
      cpioCat (fun a => some (content a)) 4 [0x62] 3 = some (r', printed) ∧
      (r = 0 ↔ [0x62] ∈ entryNames calls) := by
  intro bytes content
  have hls : cpioLs (fun a => some (content a)) 4 3 2 =
      some [.name [0x61], .text "\n", .name [0x62], .text "\n"] := by decide +kernel
  obtain ⟨r, file, r', printed, hfind, hcat, hmem, -⟩ :=
    cpioFind_agrees (by decide) hls [0x62] (by decide) ⟨0, 0⟩
  exact ⟨_, r, file, r', printed, hls, hfind, hcat, hmem (by decide)⟩

end Agree

end Boot
end OscKernel
