import OscKernel.Uart.Load
import Mathlib.Data.List.Infix
import Mathlib.Data.List.TakeWhile

/-!
# The command line (`shell.c`)

The loop of `shell`, which is the same in the kernel and in the bootloader: it stores characters in
`buf`, deletes one at a backspace, and hands the string in `buf` over at a newline.

* `shellKey`: one round of the loop.
* `edited`: the line that a sequence of keys means.
* `commands_of_keys`: the commands are the lines that were typed, and no index leaves `buf`.
* `Row.put`: a line of a terminal; `screen_of_keys`: it shows what a newline would execute.

`buf` is not cleared between lines, and a line that is handed over ends at the first `NUL`, wherever
that came from.  `edited` is a line without a buffer: the keys since the last newline, with those
that a backspace took away or for which there was no room left out.  The terminal knows nothing of
the buffer either; it sees what is echoed, with a backspace as three characters.
-/

namespace OscKernel
namespace Shell

open Uart

/-! ## The loop -/

/-- `SHELL_BUF_SIZE`. -/
def shellBufSize : ℕ := 128

/-- `'\b'`. -/
def backspace : UInt8 := 8
/-- The code of the key `DEL`. -/
def delete : UInt8 := 127

/-- `"opi-rv2> "`. -/
def prompt : List UInt8 := [0x6f, 0x70, 0x69, 0x2d, 0x72, 0x76, 0x32, 0x3e, 0x20]

/-- `"\b \b"`. -/
def rubout : List UInt8 := [backspace, 0x20, backspace]

/-- `buf` and `len`. -/
structure LineBuf where
  buf : ℕ → UInt8
  len : ℕ

namespace LineBuf

/-- The string in `buf`. -/
def string (s : LineBuf) : List UInt8 := ((List.range shellBufSize).map s.buf).takeWhile (· ≠ 0)

/-- `buf[len] = '\0'`. -/
def terminate (s : LineBuf) : LineBuf := { s with buf := Function.update s.buf s.len 0 }

/-- `buf[len++] = c`. -/
def push (s : LineBuf) (c : UInt8) : LineBuf :=
  { buf := Function.update s.buf s.len c, len := s.len + 1 }

end LineBuf

/-- What a round of the loop leaves: the buffer, what it passes to `uart_putc`, and the command that
it passes to `shell_handle_command`. -/
structure Round where
  line : LineBuf
  echo : List UInt8
  command : Option (List UInt8)

/-- One round, when `uart_getc` returns `c`. -/
def shellKey (s : LineBuf) (c : ℤ) : Round :=
  if c < 0 then ⟨s, [], none⟩
  else if c = newline.toNat then
    ⟨{ s.terminate with len := 0 }, [newline], some s.terminate.string⟩
  else if c = backspace.toNat ∨ c = delete.toNat then
    if s.len > 0 then ⟨{ s with len := s.len - 1 }, rubout, none⟩ else ⟨s, [], none⟩
  else if s.len < shellBufSize - 1 then ⟨s.push (toUChar c), [toUChar c], none⟩
  else ⟨s, [], none⟩

/-- The buffer after the keys `cs`. -/
def lineAfter (s : LineBuf) (cs : List ℤ) : LineBuf := cs.foldl (fun s c => (shellKey s c).line) s

/-- The commands that the keys `cs` make the shell execute. -/
def commands : LineBuf → List ℤ → List (List UInt8)
  | _, [] => []
  | s, c :: cs => (shellKey s c).command.toList ++ commands (shellKey s c).line cs

/-- What the shell echoes. -/
def echoes : LineBuf → List ℤ → List UInt8
  | _, [] => []
  | s, c :: cs => (shellKey s c).echo ++ echoes (shellKey s c).line cs

/-! ## What was typed -/

/-- A key on a line that is edited. -/
def editKey (line : List UInt8) (c : ℤ) : List UInt8 :=
  if c < 0 then line
  else if c = backspace.toNat ∨ c = delete.toNat then line.dropLast
  else if line.length < shellBufSize - 1 then line ++ [toUChar c]
  else line

/-- The line that keys mean. -/
def edited (cs : List ℤ) : List UInt8 := cs.foldl editKey []

/-- The lines that are ended by a newline. -/
def typedLines : List ℤ → List (List ℤ)
  | [] => []
  | c :: cs =>
      if c = newline.toNat then [] :: typedLines cs else (typedLines cs).modifyHead (c :: ·)

/-- The command on a line: a NUL ends it. -/
def commandOf (line : List UInt8) : List UInt8 := line.takeWhile (· ≠ 0)

/-! ## The buffer has the line -/

/-- The line `l` is in the buffer. -/
structure LineBuf.Has (s : LineBuf) (l : List UInt8) : Prop where
  len : s.len = l.length
  lt : l.length < shellBufSize
  buf : ∀ i, (h : i < l.length) → s.buf i = l[i]

section Has

variable {s : LineBuf} {l : List UInt8} {c : ℤ}

theorem LineBuf.Has.dropLast (h : s.Has l) :
    LineBuf.Has { s with len := s.len - 1 } l.dropLast where
  len := by
    rw [List.length_dropLast, ← h.len]
  lt := by
    rw [List.length_dropLast]
    exact Nat.lt_of_le_of_lt (Nat.sub_le _ _) h.lt
  buf i hi := by
    rw [List.length_dropLast] at hi
    rw [List.getElem_dropLast]
    exact h.buf i (by omega)

theorem LineBuf.Has.push (h : s.Has l) (hlt : l.length < shellBufSize - 1) (b : UInt8) :
    (s.push b).Has (l ++ [b]) where
  len := by
    rw [List.length_append, ← h.len]
    rfl
  lt := by
    rw [List.length_append, List.length_singleton]
    unfold shellBufSize at *
    omega
  buf i hi := by
    rw [LineBuf.push, h.len]
    dsimp only
    rw [List.length_append, List.length_singleton] at hi
    by_cases heq : i = l.length
    · subst heq
      simp
    · rw [Function.update_of_ne heq, List.getElem_append_left (by omega)]
      exact h.buf i (by omega)

/-- The string in the buffer is the command on the line. -/
theorem LineBuf.Has.string (h : s.Has l) : s.terminate.string = commandOf l := by
  have hprefix : (List.range l.length).map s.terminate.buf = l := by
    refine List.ext_getElem (by simp) fun i hi hi' => ?_
    rw [List.getElem_map, List.getElem_range, LineBuf.terminate]
    dsimp only
    rw [Function.update_of_ne (by rw [h.len]; exact Nat.ne_of_lt hi')]
    exact h.buf i hi'
  have hsplit : List.range shellBufSize = List.range l.length ++ l.length ::
      (List.range (shellBufSize - l.length - 1)).map (l.length + 1 + ·) := by
    have hlen : shellBufSize = l.length + (1 + (shellBufSize - l.length - 1)) := by
      have := h.lt
      omega
    conv_lhs => rw [hlen]
    rw [List.range_add, List.range_add]
    simp [Nat.add_assoc]
  have hzero : s.terminate.buf l.length = 0 := by
    rw [← h.len]
    exact Function.update_self ..
  unfold LineBuf.string commandOf
  rw [hsplit, List.map_append, hprefix, List.map_cons, hzero, List.takeWhile_append]
  split_ifs with hall
  · have hself : l.takeWhile (· ≠ 0) = l := (List.takeWhile_prefix _).eq_of_length hall
    rw [hself]
    simp
  · rfl

/-- **A key that is no newline** edits the line. -/
theorem LineBuf.Has.key (h : s.Has l) (hc : c ≠ newline.toNat) :
    (shellKey s c).line.Has (editKey l c) ∧ (shellKey s c).command = none := by
  unfold shellKey editKey
  rw [if_neg hc]
  split_ifs with hneg herase hpos hroom hroom' hroom'
  · exact ⟨h, rfl⟩
  · exact ⟨h.dropLast, rfl⟩
  · have hnil : l = [] := List.eq_nil_of_length_eq_zero (by have := h.len; omega)
    subst hnil
    exact ⟨h, rfl⟩
  · exact ⟨h.push (h.len ▸ hroom) _, rfl⟩
  · exact absurd (h.len ▸ hroom) hroom'
  · exact absurd (h.len.symm ▸ hroom') hroom
  · exact ⟨h, rfl⟩

/-- **A newline** hands the line over. -/
theorem LineBuf.Has.newline (h : s.Has l) :
    (shellKey s newline.toNat).line.Has [] ∧
      (shellKey s newline.toNat).command = some (commandOf l) := by
  unfold shellKey
  rw [if_neg (by decide), if_pos rfl]
  exact ⟨⟨rfl, by decide, fun _ hi => absurd hi (Nat.not_lt_zero _)⟩, congrArg some h.string⟩

end Has

/-! ## Runs -/

/-- The commands of the keys `cs`, when the line `l` has been typed already. -/
def commandsFrom (l : List UInt8) (cs : List ℤ) : List (List UInt8) :=
  match typedLines cs with
  | [] => []
  | first :: rest => commandOf (first.foldl editKey l) :: rest.map fun k => commandOf (edited k)

theorem commandsFrom_newline (l : List UInt8) (cs : List ℤ) :
    commandsFrom l (newline.toNat :: cs) = commandOf l :: commandsFrom [] cs := by
  unfold commandsFrom
  rw [typedLines, if_pos rfl]
  dsimp only [List.foldl_nil]
  congr 1
  cases typedLines cs with
  | nil => rfl
  | cons first rest => rfl

theorem commandsFrom_key {l : List UInt8} {c : ℤ} (hc : c ≠ newline.toNat) (cs : List ℤ) :
    commandsFrom l (c :: cs) = commandsFrom (editKey l c) cs := by
  unfold commandsFrom
  rw [typedLines, if_neg hc]
  cases typedLines cs with
  | nil => rfl
  | cons first rest => rfl

/-- The buffer always has a line, and the commands are those of the keys. -/
theorem commands_eq {s : LineBuf} {l : List UInt8} (h : s.Has l) (cs : List ℤ) :
    commands s cs = commandsFrom l cs ∧ ∃ l', (lineAfter s cs).Has l' := by
  induction cs generalizing s l with
  | nil => exact ⟨rfl, l, h⟩
  | cons c cs ih =>
    by_cases hc : c = newline.toNat
    · subst hc
      obtain ⟨hline, hcommand⟩ := h.newline
      obtain ⟨hcs, hhas⟩ := ih hline
      refine ⟨?_, hhas⟩
      rw [commands, hcommand, hcs, commandsFrom_newline]
      rfl
    · obtain ⟨hline, hcommand⟩ := h.key hc
      obtain ⟨hcs, hhas⟩ := ih hline
      refine ⟨?_, hhas⟩
      rw [commands, hcommand, hcs, commandsFrom_key hc]
      rfl

/-- **The commands are the lines that were typed**, whatever `uart_getc` returns and whatever is in
`buf` at the start: each line as the keys edit it, up to a NUL.  Every character that is stored and
every terminator is stored inside `buf`. -/
theorem commands_of_keys (buf : ℕ → UInt8) (cs : List ℤ) :
    commands ⟨buf, 0⟩ cs = (typedLines cs).map (fun k => commandOf (edited k)) ∧
      ∀ n, (lineAfter ⟨buf, 0⟩ (cs.take n)).len < shellBufSize := by
  have hstart : LineBuf.Has ⟨buf, 0⟩ [] :=
    ⟨rfl, by decide, fun _ hi => absurd hi (Nat.not_lt_zero _)⟩
  refine ⟨?_, fun n => ?_⟩
  · rw [(commands_eq hstart cs).1, commandsFrom]
    cases typedLines cs with
    | nil => rfl
    | cons first rest => rfl
  · obtain ⟨l, hl⟩ := (commands_eq hstart (cs.take n)).2
    rw [hl.len]
    exact hl.lt

/-! ## The screen -/

/-- A line of a terminal: what is before the cursor, and what is from there on. -/
structure Row where
  left : List UInt8
  right : List UInt8

namespace Row

/-- The terminal gets a printable character, which it shows at the cursor, or a backspace, which
moves the cursor. -/
def put (r : Row) (c : UInt8) : Row :=
  if c = backspace then
    match r.left.getLast? with
    | none => r
    | some x => ⟨r.left.dropLast, x :: r.right⟩
  else ⟨r.left ++ [c], r.right.tail⟩

/-- The terminal gets several characters. -/
def puts (r : Row) (cs : List UInt8) : Row := cs.foldl put r

/-- There is nothing to be seen from the cursor on. -/
def Blank (r : Row) : Prop := ∀ c ∈ r.right, c = 0x20

/-- `"\b \b"` erases the character before the cursor. -/
theorem puts_rubout (l right : List UInt8) (x : UInt8) :
    puts ⟨l ++ [x], right⟩ rubout = ⟨l, 0x20 :: right⟩ := by
  simp [puts, rubout, put, backspace]

end Row

/-- The keys that a terminal shows: printable characters, and those that erase one.  A negative
value is an error of the receiver. -/
def Typable (c : ℤ) : Prop :=
  c < 0 ∨ c = backspace.toNat ∨ c = delete.toNat ∨ 0x20 ≤ c ∧ c < 0x7f

section Screen

variable {s : LineBuf} {l pre : List UInt8} {r : Row} {c : ℤ}

theorem Typable.ne_newline (h : Typable c) : c ≠ newline.toNat := by
  rintro rfl
  unfold Typable at h
  revert h
  decide

theorem toUChar_ne_backspace (hlo : 0x20 ≤ c) (hhi : c < 0x7f) : toUChar c ≠ backspace := by
  intro heq
  have hnat := congrArg UInt8.toNat heq
  have hback : backspace.toNat = 8 := rfl
  rw [toUChar, UInt8.toNat_ofNat', hback] at hnat
  omega

theorem toUChar_ne_zero (hlo : 0x20 ≤ c) (hhi : c < 0x7f) : toUChar c ≠ 0 := by
  intro heq
  have hnat := congrArg UInt8.toNat heq
  have hzero : (0 : UInt8).toNat = 0 := rfl
  rw [toUChar, UInt8.toNat_ofNat', hzero] at hnat
  omega

/-- The echo of a key. -/
theorem Row.puts_echo (h : s.Has l) (hc : Typable c) (hleft : r.left = pre ++ l) (hr : r.Blank) :
    (r.puts (shellKey s c).echo).left = pre ++ editKey l c ∧
      (r.puts (shellKey s c).echo).Blank := by
  unfold shellKey editKey
  rw [if_neg hc.ne_newline]
  split_ifs with hneg herase hpos hroom hroom' hroom'
  · exact ⟨hleft, hr⟩
  · -- the line is not empty, so what is erased is its last character
    obtain rfl | ⟨l', x, rfl⟩ := l.eq_nil_or_concat
    · rw [h.len] at hpos
      exact absurd hpos (Nat.lt_irrefl 0)
    · obtain ⟨left, right⟩ := r
      dsimp only at hleft
      subst hleft
      rw [List.concat_eq_append, ← List.append_assoc, Row.puts_rubout, List.dropLast_concat]
      refine ⟨rfl, fun b hb => ?_⟩
      rcases List.mem_cons.mp hb with rfl | hb
      · rfl
      · exact hr b hb
  · have hnil : l = [] := List.eq_nil_of_length_eq_zero (by have := h.len; omega)
    subst hnil
    exact ⟨hleft, hr⟩
  · have hprintable : toUChar c ≠ backspace := by
      rcases hc with hlt | rfl | rfl | ⟨hlo, hhi⟩
      · exact absurd hlt hneg
      · exact absurd (Or.inl rfl) herase
      · exact absurd (Or.inr rfl) herase
      · exact toUChar_ne_backspace hlo hhi
    have hput : r.puts [toUChar c] = ⟨r.left ++ [toUChar c], r.right.tail⟩ := if_neg hprintable
    rw [hput]
    refine ⟨?_, fun b hb => hr b (List.mem_of_mem_tail hb)⟩
    rw [hleft, List.append_assoc]
  · exact absurd (h.len ▸ hroom) hroom'
  · exact absurd (h.len.symm ▸ hroom') hroom
  · exact ⟨hleft, hr⟩

/-- The echoes of several keys. -/
theorem Row.puts_echoes (h : s.Has l) {cs : List ℤ} (hcs : ∀ c ∈ cs, Typable c)
    (hleft : r.left = pre ++ l) (hr : r.Blank) :
    (r.puts (echoes s cs)).left = pre ++ cs.foldl editKey l ∧ (r.puts (echoes s cs)).Blank ∧
      (lineAfter s cs).Has (cs.foldl editKey l) := by
  induction cs generalizing s l r with
  | nil => exact ⟨hleft, hr, h⟩
  | cons c cs ih =>
    have hc := hcs c List.mem_cons_self
    obtain ⟨hleft', hr'⟩ := Row.puts_echo h hc hleft hr
    have hsplit : r.puts (echoes s (c :: cs)) =
        (r.puts (shellKey s c).echo).puts (echoes (shellKey s c).line cs) :=
      List.foldl_append ..
    rw [hsplit]
    exact ih (h.key hc.ne_newline).1 (fun k hk => hcs k (List.mem_cons_of_mem _ hk)) hleft' hr'

/-- A line that was typed has no NUL. -/
theorem edited_ne_zero {cs : List ℤ} (hcs : ∀ c ∈ cs, Typable c) (hl : ∀ b ∈ l, b ≠ 0) :
    ∀ b ∈ cs.foldl editKey l, b ≠ 0 := by
  induction cs generalizing l with
  | nil => exact hl
  | cons c cs ih =>
    refine ih (fun k hk => hcs k (List.mem_cons_of_mem _ hk)) fun b hb => ?_
    unfold editKey at hb
    split_ifs at hb with hneg herase hroom
    · exact hl b hb
    · exact hl b (List.mem_of_mem_dropLast hb)
    · rcases List.mem_append.mp hb with hb | hb
      · exact hl b hb
      · rw [List.mem_singleton.mp hb]
        rcases hcs c List.mem_cons_self with hlt | rfl | rfl | ⟨hlo, hhi⟩
        · exact absurd hlt hneg
        · exact absurd (Or.inl rfl) herase
        · exact absurd (Or.inr rfl) herase
        · exact toUChar_ne_zero hlo hhi
    · exact hl b hb

/-- **The screen shows what a newline executes.**  From a prompt on, with nothing behind the cursor,
after any keys that a terminal can show: what stands behind the prompt is the string that is handed
over when the next key is a newline, and there is nothing else to be seen. -/
theorem screen_of_keys (buf : ℕ → UInt8) {cs : List ℤ} (hcs : ∀ c ∈ cs, Typable c) (hr : r.Blank) :
    ∃ command, (r.puts (echoes ⟨buf, 0⟩ cs)).left = r.left ++ command ∧
      (r.puts (echoes ⟨buf, 0⟩ cs)).Blank ∧ command.length < shellBufSize ∧
      (shellKey (lineAfter ⟨buf, 0⟩ cs) newline.toNat).command = some command := by
  have hstart : LineBuf.Has ⟨buf, 0⟩ [] :=
    ⟨rfl, by decide, fun _ hi => absurd hi (Nat.not_lt_zero _)⟩
  obtain ⟨hleft, hblank, hline⟩ := Row.puts_echoes hstart hcs (List.append_nil r.left).symm hr
  refine ⟨cs.foldl editKey [], hleft, hblank, hline.lt, ?_⟩
  have hne : ∀ b ∈ cs.foldl editKey [], b ≠ 0 :=
    edited_ne_zero hcs fun b hb => absurd hb List.not_mem_nil
  have hself : commandOf (cs.foldl editKey []) = cs.foldl editKey [] :=
    List.takeWhile_eq_self_iff.mpr fun b hb => decide_eq_true (hne b hb)
  rw [hline.newline.2, hself]

/-- `"lx"`, `DEL`, `"s"` behind the prompt. -/
theorem screen_of_rubout : ∃ command,
    (Row.puts ⟨prompt, []⟩ (echoes ⟨fun _ => 0, 0⟩ [0x6c, 0x78, 0x7f, 0x73])).left =
      prompt ++ command ∧
    (shellKey (lineAfter ⟨fun _ => 0, 0⟩ [0x6c, 0x78, 0x7f, 0x73]) newline.toNat).command =
      some command := by
  obtain ⟨command, hleft, -, -, hcommand⟩ := @screen_of_keys ⟨prompt, []⟩ (fun _ => 0)
    [0x6c, 0x78, 0x7f, 0x73] (by unfold Typable; decide) (fun _ hb => absurd hb List.not_mem_nil)
  exact ⟨command, hleft, hcommand⟩

end Screen

end Shell
end OscKernel
