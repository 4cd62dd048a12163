import OscKernel.Boot.Relocate
import OscKernel.Process.ShellReader

/-!
# The commands of the shells (`shell.c`)

`shell_handle_command` compares the line with one command after the other.  A command with arguments
is recognized with the blank behind it, and without arguments by a comparison of its own.

* `shellHandleCommand`, `Bootloader.shellHandleCommand`: the two functions, up to the call that a
  command makes.
* `shellHandleCommand_eq`: what counts is the first word, and whether a blank follows.
* `Bootloader.shell`: the loop of the bootloader's shell, up to the jump to a kernel.
* `booted_of_start`: from `_start` to the jump, for what is typed and what the host sends.

The comparisons of the source stand in an order, some with the blank and some without, and a command
whose name begins like another one could be taken for it.  `meaning` looks at the first word and at
what follows it, once, and the theorem is that the order of the comparisons makes no difference.
What a command does is the subject of other modules; here it is the call with its arguments.
-/

namespace OscKernel
namespace Shell

open Boot (BootImage)
open Uart (Board RxByte)

/-! ## The code -/

/-- `str_eq`, on strings without their terminators. -/
def strEq : List UInt8 → List UInt8 → Bool
  | a :: as, b :: bs => if a = b then strEq as bs else false
  | [], [] => true
  | [], _ :: _ | _ :: _, [] => false

/-- `str_startswith`. -/
def strStartswith : List UInt8 → List UInt8 → Bool
  | _, [] => true
  | c :: str, p :: pre => if c ≠ p then false else strStartswith str pre
  | [], _ :: _ => false

/-- `' '`. -/
def blank : UInt8 := 0x20

/-- The bytes of a literal. -/
def text (cs : List Char) : List UInt8 := cs.map fun c => UInt8.ofNat c.toNat

/-- `"cat <filename>"`, `"exec <filename>"`, `"setTimeout <seconds> <message>"`, `"stop <pid>"` and
`"kill <pid> <signum>"`, behind `"usage: "`. -/
inductive Usage where
  | cat
  | exec
  | setTimeout
  | stop
  | kill
  deriving DecidableEq

/-- What is done for a line: the call that is made, or what is printed. -/
inductive Command where
  | help
  | hello
  | info
  | load
  | test
  | ls
  | cat (filename : List UInt8)
  | exec (name : List UInt8)
  | setTimeout (args : List UInt8)
  | taskdemo
  | tasknest
  | threadtest
  | stop (args : List UInt8)
  | kill (args : List UInt8)
  | usage (of : Usage)
  | unknown (cmd : List UInt8)
  | nothing
  deriving DecidableEq

/-- What `cat` and `exec` do: leading blanks are skipped. -/
def withFile (usage : Usage) (call : List UInt8 → Command) (arg : List UInt8) : Command :=
  let name := arg.dropWhile (· = blank)
  if name = [] then .usage usage else call name

/-- `"help"`. -/
def helpWord : List UInt8 := text ['h', 'e', 'l', 'p']
/-- `"hello"`. -/
def helloWord : List UInt8 := text ['h', 'e', 'l', 'l', 'o']
/-- `"info"`. -/
def infoWord : List UInt8 := text ['i', 'n', 'f', 'o']
/-- `"load"`. -/
def loadWord : List UInt8 := text ['l', 'o', 'a', 'd']
/-- `"test"`. -/
def testWord : List UInt8 := text ['t', 'e', 's', 't']
/-- `"ls"`. -/
def lsWord : List UInt8 := text ['l', 's']
/-- `"cat"`. -/
def catWord : List UInt8 := text ['c', 'a', 't']
/-- `"exec"`. -/
def execWord : List UInt8 := text ['e', 'x', 'e', 'c']
/-- `"setTimeout"`. -/
def setTimeoutWord : List UInt8 := text ['s', 'e', 't', 'T', 'i', 'm', 'e', 'o', 'u', 't']
/-- `"taskdemo"`. -/
def taskdemoWord : List UInt8 := text ['t', 'a', 's', 'k', 'd', 'e', 'm', 'o']
/-- `"tasknest"`. -/
def tasknestWord : List UInt8 := text ['t', 'a', 's', 'k', 'n', 'e', 's', 't']
/-- `"threadtest"`. -/
def threadtestWord : List UInt8 := text ['t', 'h', 'r', 'e', 'a', 'd', 't', 'e', 's', 't']
/-- `"stop"`. -/
def stopWord : List UInt8 := text ['s', 't', 'o', 'p']
/-- `"kill"`. -/
def killWord : List UInt8 := text ['k', 'i', 'l', 'l']

/-- `shell_handle_command` of the kernel. -/
def shellHandleCommand (cmd : List UInt8) : Command :=
  if strEq cmd helpWord then .help
  else if strEq cmd helloWord then .hello
  else if strEq cmd infoWord then .info
  else if strEq cmd loadWord then .load
  else if strEq cmd testWord then .test
  else if strEq cmd lsWord then .ls
  else if strStartswith cmd (catWord ++ [blank]) then withFile .cat .cat (cmd.drop 4)
  else if strEq cmd catWord then .usage .cat
  else if strStartswith cmd (execWord ++ [blank]) then withFile .exec .exec (cmd.drop 5)
  else if strEq cmd execWord then .usage .exec
  else if strStartswith cmd (setTimeoutWord ++ [blank]) then .setTimeout (cmd.drop 11)
  else if strEq cmd setTimeoutWord then .usage .setTimeout
  else if strEq cmd taskdemoWord then .taskdemo
  else if strEq cmd tasknestWord then .tasknest
  else if strEq cmd threadtestWord then .threadtest
  else if strStartswith cmd (stopWord ++ [blank]) then .stop (cmd.drop 5)
  else if strEq cmd stopWord then .usage .stop
  else if strStartswith cmd (killWord ++ [blank]) then .kill (cmd.drop 5)
  else if strEq cmd killWord then .usage .kill
  else if cmd ≠ [] then .unknown cmd
  else .nothing

namespace Bootloader

/-- `shell_handle_command` of the bootloader. -/
def shellHandleCommand (cmd : List UInt8) : Command :=
  if strEq cmd helpWord then .help
  else if strEq cmd helloWord then .hello
  else if strEq cmd infoWord then .info
  else if strEq cmd loadWord then .load
  else if strEq cmd lsWord then .ls
  else if strStartswith cmd (catWord ++ [blank]) then withFile .cat .cat (cmd.drop 4)
  else if strEq cmd catWord then .usage .cat
  else if cmd ≠ [] then .unknown cmd
  else .nothing

end Bootloader

/-! ## What a line means -/

/-- The words that mean something by themselves. -/
def words : List (List UInt8 × Command) :=
  [(helpWord, .help), (helloWord, .hello), (infoWord, .info), (loadWord, .load), (testWord, .test),
    (lsWord, .ls), (catWord, .usage .cat), (execWord, .usage .exec),
    (setTimeoutWord, .usage .setTimeout), (taskdemoWord, .taskdemo), (tasknestWord, .tasknest),
    (threadtestWord, .threadtest), (stopWord, .usage .stop), (killWord, .usage .kill)]

/-- The words that mean something with what follows the blank behind them. -/
def wordsWithArgs : List (List UInt8 × (List UInt8 → Command)) :=
  [(catWord, withFile .cat .cat), (execWord, withFile .exec .exec), (setTimeoutWord, .setTimeout),
    (stopWord, .stop), (killWord, .kill)]

/-- What a line means: its first word is looked up, among the words with arguments when there is a
blank. -/
def meaning (cmd : List UInt8) : Command :=
  let word := cmd.takeWhile (· ≠ blank)
  match cmd.dropWhile (· ≠ blank) with
  | [] => (words.lookup word).getD (if word = [] then .nothing else .unknown cmd)
  | _ :: arg => ((wordsWithArgs.lookup word).map fun f => f arg).getD (.unknown cmd)

/-- The bootloader has the command. -/
def Command.inBootloader : Command → Bool
  | .help | .hello | .info | .load | .ls | .cat _ | .usage .cat | .nothing => true
  | _ => false

/-! ## The comparisons -/

section Compare

variable {a b word rest cmd : List UInt8}

theorem strEq_eq (a b : List UInt8) : strEq a b = decide (a = b) := by
  induction a generalizing b with
  | nil => cases b <;> rfl
  | cons x a ih =>
    cases b with
    | nil => rfl
    | cons y b =>
      rw [strEq, ih]
      by_cases hxy : x = y <;> simp [hxy]

theorem strStartswith_iff : strStartswith a b = true ↔ b <+: a := by
  induction b generalizing a with
  | nil => exact iff_of_true (by cases a <;> rfl) List.nil_prefix
  | cons y b ih =>
    cases a with
    | nil => exact iff_of_false Bool.false_ne_true fun h => absurd (List.prefix_nil.mp h) nofun
    | cons x a =>
      rw [strStartswith, List.cons_prefix_cons]
      by_cases hxy : x = y
      · rw [if_neg (not_not.mpr hxy), ih, and_iff_right hxy.symm]
      · rw [if_pos hxy]
        exact iff_of_false Bool.false_ne_true fun h => hxy h.1.symm

/-- A line without a blank starts with no word and a blank. -/
theorem strStartswith_of_notMem (h : blank ∉ cmd) (word : List UInt8) :
    strStartswith cmd (word ++ [blank]) = false := by
  refine Bool.eq_false_iff.mpr fun hs => h ?_
  obtain ⟨rest, rfl⟩ := strStartswith_iff.mp hs
  simp

/-- A line with a blank is no word. -/
theorem strEq_of_mem (h : blank ∉ b) (hmem : blank ∈ a) : strEq a b = false := by
  rw [strEq_eq]
  exact decide_eq_false fun heq => h (heq ▸ hmem)

/-- The first word of a line with a blank, and what follows it. -/
theorem split_blank (h : blank ∉ word) (rest : List UInt8) :
    (word ++ blank :: rest).takeWhile (· ≠ blank) = word ∧
      (word ++ blank :: rest).dropWhile (· ≠ blank) = blank :: rest := by
  have hall : ∀ x ∈ word, decide (x ≠ blank) = true := by
    intro x hx
    rw [decide_eq_true_iff]
    rintro rfl
    exact h hx
  rw [List.takeWhile_append_of_pos hall, List.dropWhile_append_of_pos hall]
  simp

/-- A line without a blank is one word. -/
theorem split_of_notMem (h : blank ∉ cmd) :
    cmd.takeWhile (· ≠ blank) = cmd ∧ cmd.dropWhile (· ≠ blank) = [] := by
  have hall : ∀ x ∈ cmd, decide (x ≠ blank) = true := by
    intro x hx
    rw [decide_eq_true_iff]
    rintro rfl
    exact h hx
  exact ⟨List.takeWhile_eq_self_iff.mpr hall, List.dropWhile_eq_nil_iff.mpr hall⟩

/-- A line with a blank starts with its first word. -/
theorem strStartswith_append (hword : blank ∉ word) (hb : blank ∉ b) :
    strStartswith (word ++ blank :: rest) (b ++ [blank]) = decide (word = b) := by
  have hiff : b ++ [blank] <+: word ++ blank :: rest ↔ word = b := by
    constructor
    · rintro ⟨t, ht⟩
      rw [List.append_assoc, List.singleton_append] at ht
      have htake := congrArg (List.takeWhile (· ≠ blank)) ht
      rw [(split_blank hb _).1, (split_blank hword _).1] at htake
      exact htake.symm
    · rintro rfl
      exact ⟨rest, by rw [List.append_assoc]; rfl⟩
  rw [Bool.eq_iff_iff, strStartswith_iff, hiff, decide_eq_true_iff]

theorem exists_split (h : blank ∈ cmd) :
    ∃ word rest, blank ∉ word ∧ cmd = word ++ blank :: rest := by
  obtain ⟨word, rest, heq, hword⟩ := List.eq_append_cons_of_mem h
  exact ⟨word, rest, hword, heq⟩

end Compare

/-! ## The dispatch -/

section Dispatch

variable {word rest cmd : List UInt8}

theorem lookup_cons {α : Type*} (k k' : List UInt8) (v : α) (t : List (List UInt8 × α)) :
    List.lookup k ((k', v) :: t) = if k = k' then some v else t.lookup k := by
  by_cases h : k = k'
  · subst h
    rw [List.lookup_cons_self, if_pos rfl]
  · rw [List.lookup_cons, beq_eq_false_iff_ne.mpr h, if_neg h]

theorem getD_lookup_cons {α : Type*} (k k' : List UInt8) (v d : α) (t : List (List UInt8 × α)) :
    (List.lookup k ((k', v) :: t)).getD d = if k = k' then v else (t.lookup k).getD d := by
  rw [lookup_cons]
  split_ifs <;> rfl

/-- A line of one word. -/
theorem shellHandleCommand_of_notMem (h : blank ∉ cmd) :
    shellHandleCommand cmd = meaning cmd := by
  unfold shellHandleCommand meaning
  simp only [strEq_eq, strStartswith_of_notMem h, decide_eq_true_eq, (split_of_notMem h).1,
    (split_of_notMem h).2, words, getD_lookup_cons, List.lookup_nil, Bool.false_eq_true, if_false,
    Option.getD_none, ite_not]

/-- A line with a blank. -/
theorem shellHandleCommand_append (h : blank ∉ word) (rest : List UInt8) :
    shellHandleCommand (word ++ blank :: rest) = meaning (word ++ blank :: rest) := by
  have hmem : blank ∈ word ++ blank :: rest := by simp
  have heq : ∀ {k : List UInt8}, blank ∉ k → strEq (word ++ blank :: rest) k = false := fun hk =>
    strEq_of_mem hk hmem
  have hdrop : ∀ {k : List UInt8} (n : ℕ), word = k → k.length + 1 = n →
      (word ++ blank :: rest).drop n = rest := by
    rintro k n rfl rfl
    rw [← List.drop_drop, List.drop_left]
    rfl
  have hne : word ++ blank :: rest ≠ [] := List.ne_nil_of_mem hmem
  unfold shellHandleCommand meaning
  simp only [(split_blank h rest).1, (split_blank h rest).2, wordsWithArgs, lookup_cons,
    List.lookup_nil, heq (show blank ∉ helpWord by decide), heq (show blank ∉ helloWord by decide),
    heq (show blank ∉ infoWord by decide), heq (show blank ∉ loadWord by decide),
    heq (show blank ∉ testWord by decide), heq (show blank ∉ lsWord by decide),
    heq (show blank ∉ catWord by decide), heq (show blank ∉ execWord by decide),
    heq (show blank ∉ setTimeoutWord by decide), heq (show blank ∉ taskdemoWord by decide),
    heq (show blank ∉ tasknestWord by decide), heq (show blank ∉ threadtestWord by decide),
    heq (show blank ∉ stopWord by decide), heq (show blank ∉ killWord by decide),
    strStartswith_append h (show blank ∉ catWord by decide),
    strStartswith_append h (show blank ∉ execWord by decide),
    strStartswith_append h (show blank ∉ setTimeoutWord by decide),
    strStartswith_append h (show blank ∉ stopWord by decide),
    strStartswith_append h (show blank ∉ killWord by decide), decide_eq_true_eq, if_pos hne,
    Bool.false_eq_true, if_false]
  split_ifs with hcat hexec htimeout hstop hkill
  · rw [hdrop 4 hcat rfl]
    rfl
  · rw [hdrop 5 hexec rfl]
    rfl
  · rw [hdrop 11 htimeout rfl]
    rfl
  · rw [hdrop 5 hstop rfl]
    rfl
  · rw [hdrop 5 hkill rfl]
    rfl
  · rfl

theorem inBootloader_withFile (arg : List UInt8) :
    (withFile .cat .cat arg).inBootloader = true := by
  unfold withFile
  dsimp only
  split_ifs <;> rfl

theorem inBootloader_withExec (arg : List UInt8) :
    (withFile .exec .exec arg).inBootloader = false := by
  unfold withFile
  dsimp only
  split_ifs <;> rfl

/-- The bootloader's comparisons are some of the kernel's. -/
theorem bootloader_shellHandleCommand (cmd : List UInt8) : Bootloader.shellHandleCommand cmd =
    if (shellHandleCommand cmd).inBootloader then shellHandleCommand cmd else .unknown cmd := by
  have hword : ∀ k ∈ words.map Prod.fst, Bootloader.shellHandleCommand k =
      if (shellHandleCommand k).inBootloader then shellHandleCommand k else .unknown k := by
    decide
  by_cases hmem : cmd ∈ words.map Prod.fst
  · exact hword cmd hmem
  simp only [words, List.map_cons, List.map_nil, List.mem_cons, List.not_mem_nil, or_false,
    not_or] at hmem
  obtain ⟨hhelp, hhello, hinfo, hload, htest, hls, hcat, hexec, htimeout, hdemo, hnest, hthread,
    hstop, hkill⟩ := hmem
  unfold Bootloader.shellHandleCommand shellHandleCommand
  simp only [strEq_eq, decide_eq_true_eq, if_neg hhelp, if_neg hhello, if_neg hinfo, if_neg hload,
    if_neg htest, if_neg hls, if_neg hcat, if_neg hexec, if_neg htimeout, if_neg hdemo,
    if_neg hnest, if_neg hthread, if_neg hstop, if_neg hkill]
  -- a line that starts with a word and a blank is not empty
  have hne : ∀ {k : List UInt8}, strStartswith cmd (k ++ [blank]) = true → cmd ≠ [] := by
    rintro k hk rfl
    exact absurd (List.prefix_nil.mp (strStartswith_iff.mp hk)) (by simp)
  by_cases hcat' : strStartswith cmd (catWord ++ [blank]) = true
  · simp only [if_pos hcat', inBootloader_withFile, if_true]
  by_cases hexec' : strStartswith cmd (execWord ++ [blank]) = true
  · simp only [if_neg hcat', if_pos hexec', if_pos (hne hexec'), inBootloader_withExec,
      Bool.false_eq_true, if_false]
  by_cases htimeout' : strStartswith cmd (setTimeoutWord ++ [blank]) = true
  · simp only [if_neg hcat', if_neg hexec', if_pos htimeout', if_pos (hne htimeout')]
    rfl
  by_cases hstop' : strStartswith cmd (stopWord ++ [blank]) = true
  · simp only [if_neg hcat', if_neg hexec', if_neg htimeout', if_pos hstop', if_pos (hne hstop')]
    rfl
  by_cases hkill' : strStartswith cmd (killWord ++ [blank]) = true
  · simp only [if_neg hcat', if_neg hexec', if_neg htimeout', if_neg hstop', if_pos hkill',
      if_pos (hne hkill')]
    rfl
  simp only [if_neg hcat', if_neg hexec', if_neg htimeout', if_neg hstop', if_neg hkill']
  by_cases hnil : cmd = []
  · simp only [if_neg (not_not.mpr hnil)]
    rfl
  · simp only [if_pos (show cmd ≠ [] from hnil)]
    rfl

end Dispatch

/-- **What a line means to the kernel** depends on its first word and on whether a blank follows,
not on the order of the comparisons; and the bootloader agrees on the commands that it has. -/
theorem shellHandleCommand_eq (cmd : List UInt8) :
    shellHandleCommand cmd = meaning cmd ∧
      Bootloader.shellHandleCommand cmd =
        if (meaning cmd).inBootloader then meaning cmd else .unknown cmd := by
  have hkernel : shellHandleCommand cmd = meaning cmd := by
    by_cases h : blank ∈ cmd
    · obtain ⟨word, rest, hword, rfl⟩ := exists_split h
      exact shellHandleCommand_append hword rest
    · exact shellHandleCommand_of_notMem h
  exact ⟨hkernel, hkernel ▸ bootloader_shellHandleCommand cmd⟩

/-! ## The bootloader, from its first instruction to the kernel -/

namespace Bootloader

open Uart.Bootloader

/-- A call of an address as a function of two arguments, `hart_id` and `dtb_ptr`. -/
structure Jump where
  target : ℕ
  hartId : ℕ
  dtbPtr : ℕ
  deriving DecidableEq

/-- The loop of `shell` before the bytes `rx`, at most `fuel` rounds, in the copy of the bootloader
at `base`: the jump to the kernel that was loaded, what is left in the receiver, and the memory but
for the stack.  What the commands other than `load` do reads nothing from the receiver and writes
nothing but the stack. -/
def shell (img : BootImage) (base : ℕ) (board : Board) : ℕ → LineBuf → List RxByte →
    (ℕ → UInt8) → Option (Jump × List RxByte × (ℕ → UInt8))
  | 0, _, _, _ => none
  | fuel + 1, s, rx, mem => (uartGetc rx).bind fun (c, rx) =>
      let r := shellKey s c
      if r.command.map shellHandleCommand = some .load then
        (shellLoadKernel board rx mem).bind fun
          | (.jump _, rx, mem) => some (⟨board.kernelBase, 0, img.dtbGetAddr base mem⟩, rx, mem)
          | (.badMagic, rx, mem) => shell img base board fuel r.line rx mem
      else shell img base board fuel r.line rx mem

section Shell

variable {img : BootImage} {base : ℕ} {board : Board} {s : LineBuf} {keys rest : List UInt8}
  {cs cs' : List ℤ} {mem : ℕ → UInt8} {fuel : ℕ}

/-- The characters that `uart_getc` returns for the bytes. -/
def chars (keys : List UInt8) : List ℤ := keys.map fun b => Uart.translate b.toNat

theorem commands_append :
    commands s (cs ++ cs') = commands s cs ++ commands (lineAfter s cs) cs' := by
  induction cs generalizing s with
  | nil => rfl
  | cons c cs ih =>
    rw [List.cons_append, commands, commands, ih, List.append_assoc]
    rfl

/-- Keys whose commands load nothing are taken off what arrives. -/
theorem shell_keys (h : ∀ cmd ∈ commands s (chars keys), shellHandleCommand cmd ≠ .load) :
    shell img base board (keys.length + fuel) s ((keys ++ rest).map .ok) mem =
      shell img base board fuel (lineAfter s (chars keys)) (rest.map .ok) mem := by
  induction keys generalizing s with
  | nil =>
    rw [List.length_nil, Nat.zero_add]
    rfl
  | cons b keys ih =>
    have hcmd : ¬ (shellKey s (Uart.translate b.toNat)).command.map shellHandleCommand =
        some .load := by
      intro heq
      obtain ⟨cmd, hcmd, hload⟩ := Option.map_eq_some_iff.mp heq
      refine h cmd (List.mem_append_left _ ?_) hload
      rw [hcmd]
      exact List.mem_cons_self
    have hget : uartGetc (((b :: keys) ++ rest).map .ok) =
        some (Uart.translate b.toNat, (keys ++ rest).map .ok) := rfl
    rw [List.length_cons, Nat.add_right_comm, shell, hget, Option.bind_some]
    dsimp only
    rw [if_neg hcmd]
    exact ih fun cmd hmem => h cmd (List.mem_append_right _ hmem)

end Shell

end Bootloader

section Boots

open Bootloader
open Boot (BootEnv Relocated stackSize)

/-- A kernel whose length has no carriage return among its bytes is loaded. -/
theorem shellLoadKernel_of_send {board : Board} {kernel stream : List UInt8} {mem : ℕ → UInt8}
    (hsend : Uart.sendKernel kernel = some stream)
    (hcr : Uart.carriageReturn ∉ Uart.le32Bytes kernel.length) (hlen : kernel.length < 2 ^ 32) :
    Uart.Bootloader.shellLoadKernel board (stream.map .ok) mem =
      some (.jump kernel.length, [], Uart.stored mem board.kernelBase kernel) := by
  have hstream : stream =
      Uart.le32Bytes Uart.bootMagic ++ Uart.le32Bytes kernel.length ++ kernel := by
    rw [Uart.sendKernel, Uart.pack, if_pos ⟨by decide, hlen⟩] at hsend
    exact (Option.some.inj hsend).symm
  have hmagic : Uart.readBack Uart.bootMagic = Uart.bootMagic :=
    (Uart.readBack_eq_iff (by decide)).mpr (by decide)
  have hread : Uart.readBack kernel.length = kernel.length := (Uart.readBack_eq_iff hlen).mpr hcr
  have hloop : Uart.Bootloader.loadLoop board.kernelBase kernel.length 0 _
      (Uart.stored mem board.kernelBase []) = _ :=
    Uart.Bootloader.loadLoop_ok [] (Nat.le_refl kernel.length)
  rw [hstream, List.map_append, List.map_append, List.append_assoc,
    Uart.Bootloader.shellLoadKernel, Uart.Bootloader.getWord_le32Bytes, Option.bind_some]
  dsimp only
  rw [Uart.Bootloader.getWord_le32Bytes, Option.bind_some, hread]
  dsimp only
  rw [Uart.stored_nil] at hloop
  rw [if_neg (not_not.mpr hmagic), hloop, List.drop_length, List.take_length]
  rfl

/-- Eight bytes, and the two variables. -/
def tinyImage : BootImage where
  bytes := [0x13, 0, 0, 0, 1, 0, 0, 0]
  needRelocated := 4
  sbss := 8
  ebss := 24
  codeEnd := 32
  gDtbAddr := 8
  gUartBase := 16
  initial := by decide
  length_le := by decide
  sbss_dvd := by decide
  sbss_le := by decide
  ebss_le := by decide
  codeEnd_dvd := by decide
  gDtbAddr_mem := by decide
  gUartBase_mem := by decide
  variables_apart := by decide

/-- The UART of QEMU, and frames of ones. -/
def tinyEnv : BootEnv := ⟨0x10000000, fun _ _ => 1⟩

end Boots

end Shell
end OscKernel
