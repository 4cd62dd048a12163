import OscKernel.Buddy.Run
import OscKernel.Lib.DyadicCover

/-!
# The free lists are canonical

`buddy_free` merges a block with its buddy for as long as that is free, the split loop of
`buddy_alloc` leaves no two halves behind, and `buddy_build_free_lists` takes the largest block
that fits.  So two buddies are never both free (`Unpaired`), and the free blocks are the maximal
aligned blocks of free frames.

* `canonical_of_reachable`: they are, in every state of every run; what is on the lists depends on
  which frames are free, and when nothing is allocated it is what boot put there.

## Two halves

That no two buddies are free is a property of the lists, and it has to be carried through the loops,
in which it fails: between two rounds of the merge loop a block is in hand whose buddy may be free,
and in the split loop the two halves of a block are pushed one after the other, of which only one
stays.  The invariant is therefore stated around the block in hand, like that of
`OscKernel.Buddy.Invariant`.

That the free blocks are the maximal ones follows from it without another look at the code: a cover
of free frames by aligned blocks, of which no two are buddies, is the only one of its kind
(`OscKernel.Lib.DyadicCover`).  The lists after boot need an argument of their own, since they are
made by another loop; no free block there could have been twice as large (`Tight`).

A block whose address is `NULL` is allocated for good, since nobody can free it; the last part of
the theorem does not apply then.
-/

namespace OscKernel

open DyadicBlock Transition

namespace Buddy

variable {b : Buddy} {H : Set ℕ} {i k j : ℕ}

/-- The frames that are free. -/
def freeFrames (b : Buddy) : Set ℕ := {j | j < b.gTotalPages ∧ IsFreeVal (b.frameArray j)}

/-- No two buddies are both free, unless they are as large as blocks get. -/
def Unpaired (b : Buddy) : Prop :=
  ∀ i k, b.FreeBlock i k → k < maxOrder → ¬ b.FreeBlock (i ^^^ 2 ^ k) k

theorem Unpaired.mono {b' : Buddy} (h : b.Unpaired)
    (hf : ∀ i k, b'.FreeBlock i k → b.FreeBlock i k) :
    b'.Unpaired := by
  intro i k hi hk hbuddy
  exact h i k (hf i k hi) hk (hf _ k hbuddy)

/-- A block may be pushed when its buddy is not free. -/
theorem Unpaired.blockPush (h : b.Unpaired) (hd : 2 ^ k ∣ i)
    (hbuddy : k < maxOrder → ¬ b.FreeBlock (i ^^^ 2 ^ k) k) : (b.blockPush i k).Unpaired := by
  intro i' k' hi hk' hi'
  rcases freeBlock_blockPush.mp hi with hf | ⟨rfl, rfl, -⟩
  · rcases freeBlock_blockPush.mp hi' with hold | ⟨heq, rfl, -⟩
    · exact h i' k' hf hk' hold
    · have hback : i ^^^ 2 ^ k' = i' := by
        rw [← heq, Nat.xor_assoc, Nat.xor_self, Nat.xor_zero]
      exact hbuddy hk' (hback.symm ▸ hf)
  · rcases freeBlock_blockPush.mp hi' with hi' | ⟨heq, -, -⟩
    · exact hbuddy hk' hi'
    · exact xor_two_pow_ne hd heq

/-- A block that meets the hole is not free. -/
theorem InvOff.not_freeBlock_of_mem (h : b.InvOff H) (hj : j ∈ block i k) (hjH : j ∈ H) :
    ¬ b.FreeBlock i k := fun hf => Set.disjoint_left.mp (h.off hf) hj hjH

/-! ## `buddy_alloc` -/

theorem unpaired_splitDown {target cur : ℕ} (hp : b.Pending i cur) (h : b.Unpaired) :
    (splitDown i target cur b).Unpaired := by
  induction cur generalizing b with
  | zero => exact h
  | succ cur ih =>
    rw [splitDown]
    split_ifs with hgt
    · refine ih hp.split.1 (h.blockPush ?_ fun _ => ?_)
      · exact Nat.dvd_add ((pow_dvd_pow 2 cur.le_succ).trans hp.aligned) dvd_rfl
      · -- the buddy of the upper half is the lower half, which is in the hole
        have hlow : (i + 2 ^ cur) ^^^ 2 ^ cur = i := by
          rw [← xor_lower hp.aligned, Nat.xor_assoc, Nat.xor_self, Nat.xor_zero]
        rw [hlow]
        exact hp.inv.not_freeBlock_of_mem (self_mem_block i cur) (self_mem_block i (cur + 1))
    · exact h

theorem unpaired_buddyAlloc (hinv : b.Inv) (h : b.Unpaired) (size : ℕ) :
    (b.buddyAlloc size).1.Unpaired := by
  unfold buddyAlloc
  dsimp only
  split_ifs with h0 hbig hnone
  · exact h
  · exact h
  · exact h
  · set target := pagesToOrder (u64 (size + pageSize - 1) / pageSize)
    set cur := b.searchUp (maxOrder + 1) target
    cases hlist : b.freeList cur with
    | nil => exact h
    | cons idx rest =>
      have hf : b.FreeBlock idx cur := ⟨by omega, by rw [hlist]; exact List.mem_cons_self⟩
      have hpop : (b.blockPop idx cur).Unpaired := h.mono fun i k hi =>
        ((freeBlock_blockPop hinv).mp hi).1
      exact unpaired_splitDown (hinv.pop hf).1 hpop

/-! ## `buddy_free` -/

/-- The coalescing loop stops at a block whose buddy is not free. -/
theorem unpaired_coalesce {fuel : ℕ} (hp : b.Pending i k) (h : b.Unpaired)
    (hfuel : maxOrder ≤ k + fuel) :
    (coalesce fuel b i k).1.Unpaired ∧ ((coalesce fuel b i k).2.2 < maxOrder →
      ¬ (coalesce fuel b i k).1.FreeBlock
        ((coalesce fuel b i k).2.1 ^^^ 2 ^ (coalesce fuel b i k).2.2)
          (coalesce fuel b i k).2.2) := by
  induction fuel generalizing b i k with
  | zero =>
    refine ⟨h, fun hlt => ?_⟩
    change k < maxOrder at hlt
    omega
  | succ fuel ih =>
    have hmin : (if i ^^^ 2 ^ k < i then i ^^^ 2 ^ k else i) = min i (i ^^^ 2 ^ k) := by
      rw [Nat.min_def]
      split_ifs <;> omega
    rw [coalesce]
    dsimp only
    rw [hmin]
    split_ifs with hk hrange hres horder
    · refine ⟨h, fun _ hf => ?_⟩
      have hin : (i ^^^ 2 ^ k) + 2 ^ k ≤ b.gTotalPages := hp.inv.inside hf
      have hpos := Nat.two_pow_pos k
      omega
    · refine ⟨h, fun _ hf => not_isFreeVal_reserved ?_⟩
      rw [← hres]
      exact hp.inv.isFreeVal hf (self_mem_block _ _)
    · exact ⟨h, fun _ hf => horder (hp.inv.head hf)⟩
    · have hoff : i ^^^ 2 ^ k ∉ block i k := fun hmem => xor_two_pow_ne hp.aligned
        (eq_of_mem_block (dvd_xor_two_pow hp.aligned) hp.aligned (self_mem_block _ _) hmem)
      have hf := hp.inv.freeBlock_of_frame (by omega) hoff hp.order_le (not_not.mp horder)
      refine ih (hp.merge hk hf).1 (h.mono fun i k hi => ?_) (by omega)
      exact ((freeBlock_blockPop hp.inv).mp hi).1
    · exact ⟨h, fun hlt => absurd hlt hk⟩

theorem unpaired_buddyFree (hinv : b.Inv) (h : b.Unpaired) (ha : b.AllocBlock i k)
    (hreg : b.gBuddyBase + b.gTotalPages * pageSize ≤ 2 ^ 64) :
    (b.buddyFree (b.idxToAddr i)).Unpaired := by
  have hi := ha.index_lt
  unfold buddyFree
  dsimp only
  split_ifs with h0 hguard hres
  · exact h
  · exact h
  · exact h
  · simp only [addrToIdx_idxToAddr hreg hi, ha.tagged i (self_mem_block i k),
      getAllocOrder_allocTag ha.order_le]
    have hpend := hinv.release ha
    set b₁ : Buddy := { b with frameArray := setFrames b.frameArray i (2 ^ k) frameFreePart }
    have h₁ : b₁.Unpaired := h.mono fun _ _ => id
    obtain ⟨hp, -⟩ := pending_coalesce maxOrder hpend
    obtain ⟨hun, hbuddy⟩ := unpaired_coalesce hpend h₁ (Nat.le_add_left _ _)
    exact hun.blockPush hp.aligned hbuddy

/-! ## `buddy_build_free_lists` -/

/-- A free block at the lower place of a pair could not have been twice as large: that block is
not inside the region, or it holds a reserved frame. -/
def Tight (b : Buddy) : Prop :=
  ∀ i k, b.FreeBlock i k → k < maxOrder → 2 ^ (k + 1) ∣ i → i + 2 ^ (k + 1) ≤ b.gTotalPages →
    ∃ j ∈ block i (k + 1), b.frameArray j = frameReserved

/-- The inner loop finds the largest order. -/
theorem buildOrder_max {order m : ℕ} (hm : m ≤ order) (hgt : b.buildOrder i order < m)
    (hd : 2 ^ m ∣ i) (hin : i + 2 ^ m ≤ b.gTotalPages) :
    ∃ j ∈ block i m, b.frameArray j = frameReserved := by
  induction order with
  | zero => omega
  | succ order ih =>
    rw [buildOrder] at hgt
    split_ifs at hgt with hbad hclean
    · rcases Nat.lt_or_ge order m with hlt | hle
      · obtain rfl : m = order + 1 := by omega
        rw [Nat.and_two_pow_sub_one_eq_mod] at hbad
        have := Nat.mod_eq_zero_of_dvd hd
        omega
      · exact ih hle hgt
    · omega
    · rcases Nat.lt_or_ge order m with hlt | hle
      · obtain rfl : m = order + 1 := by omega
        push Not at hclean
        obtain ⟨x, hx, hres⟩ := hclean
        exact ⟨i + x, ⟨by omega, by omega⟩, hres⟩
      · exact ih hle hgt

theorem tight_buildLoop {fuel : ℕ} (h : b.Tight) : (buildLoop fuel b i).Tight := by
  induction fuel generalizing b i with
  | zero => exact h
  | succ fuel ih =>
    rw [buildLoop]
    split_ifs with hlt hr
    · exact ih h
    · obtain ⟨ho, hd, hin, hclean⟩ := buildOrder_spec hlt hr maxOrder
      have hkeep : ∀ x, b.frameArray x = frameReserved →
          (b.blockPush i (b.buildOrder i maxOrder)).frameArray x = frameReserved := fun x hx => by
        rw [blockPush_frame_of_notMem fun hmem => hclean x hmem hx]
        exact hx
      refine ih fun i' k' hf hk' hd' hin' => ?_
      rcases freeBlock_blockPush.mp hf with hf | ⟨rfl, rfl, -⟩
      · obtain ⟨x, hx, hres⟩ := h i' k' hf hk' hd' hin'
        exact ⟨x, hx, hkeep x hres⟩
      · obtain ⟨x, hx, hres⟩ := buildOrder_max hk' (Nat.lt_succ_self _) hd' hin'
        exact ⟨x, hx, hkeep x hres⟩
    · exact h

/-- Two buddies that are both free make up a block that could have been chosen. -/
theorem Tight.unpaired (h : b.Tight) (hinv : b.Inv) : b.Unpaired := by
  have key : ∀ i k, b.FreeBlock i k → b.FreeBlock (i + 2 ^ k) k → k < maxOrder →
      ¬ 2 ^ (k + 1) ∣ i := by
    intro i k hlow hup hk hd
    have hin : i + 2 ^ (k + 1) ≤ b.gTotalPages := by
      have := hinv.inside hup
      rw [Nat.pow_succ]
      omega
    obtain ⟨j, hj, hres⟩ := h i k hlow hk hd hin
    refine not_isFreeVal_reserved (hres ▸ ?_)
    rw [block_split] at hj
    rcases hj with hj | hj
    · exact hinv.isFreeVal hlow hj
    · exact hinv.isFreeVal hup hj
  intro i k hf hk hbuddy
  rcases xor_two_pow_cases (hinv.aligned hf) with ⟨hd, hx⟩ | ⟨hle, hd, hx⟩ <;> rw [hx] at hbuddy
  · exact key i k hf hbuddy hk hd
  · refine key (i - 2 ^ k) k hbuddy ?_ hk hd
    rwa [Nat.sub_add_cancel hle]

/-! ## The cover -/

/-- **The free blocks are a canonical cover of the free frames.** -/
theorem Unpaired.canonicalCover (h : b.Unpaired) (hinv : b.Inv) :
    CanonicalCover maxOrder b.freeFrames b.FreeBlock := by
  refine ⟨fun {i k} hf => ⟨hf.1, hinv.aligned hf, fun j hj => ⟨?_, hinv.isFreeVal hf hj⟩⟩,
    fun j hj => ?_, fun hf hf' hj hj' => hinv.free_unique hf hf' hj hj', fun {i k} => h i k⟩
  · have hin := hinv.inside hf
    rw [mem_block] at hj
    omega
  · rcases hinv.cover j hj.1 (Set.notMem_empty j) with hres | hfree | ⟨i, k, ha, hmem, -⟩
    · exact absurd (hres ▸ hj.2) not_isFreeVal_reserved
    · exact hfree
    · exact absurd hj.2 (ha.not_isFreeVal hmem)

end Buddy

open Buddy

/-! ## Runs -/

namespace PageClient

variable {fa₀ : ℕ → ℤ} {s s' : PageClient}

theorem unpaired_step {c : PageCall} (h : s.Ok fa₀) (hun : s.buddy.Unpaired)
    (hs : s.step c = some s') : s'.buddy.Unpaired := by
  cases c with
  | alloc size =>
    obtain rfl := Option.some.inj hs
    exact unpaired_buddyAlloc h.inv hun size
  | free ptr =>
    rw [step] at hs
    split_ifs at hs with hmem
    obtain rfl := Option.some.inj hs
    obtain ⟨-, i, k, ha, rfl⟩ := h.live ptr hmem
    exact unpaired_buddyFree h.inv hun ha h.region

theorem unpaired_bootPages (fa : ℕ → ℤ) (base size : ℕ) (reserves : List (ℕ × ℕ)) :
    (bootPages fa base size reserves).buddy.Unpaired := by
  have hun := unbuilt_reservedBuddy fa base size reserves
  refine Tight.unpaired (tight_buildLoop fun i k hf => ?_) hun.built.1
  have := hf.2
  rw [hun.lists] at this
  exact absurd this List.not_mem_nil

theorem sameRegion_step {c : PageCall} (h : s.Ok fa₀) (hs : s.step c = some s') :
    SameRegion s.buddy s'.buddy := by
  cases c with
  | alloc size =>
    obtain rfl := Option.some.inj hs
    rcases buddyAlloc_cases h.inv size with heq | ⟨i, b', heq, -, hgrant⟩ <;>
      dsimp only <;> rw [heq]
    · exact SameRegion.refl _
    · exact hgrant.toSameRegion
  | free ptr =>
    rw [step] at hs
    split_ifs at hs with hmem
    obtain rfl := Option.some.inj hs
    obtain ⟨-, i, k, ha, rfl⟩ := h.live ptr hmem
    rcases buddyFree_cases h.inv ha h.region with ⟨-, heq⟩ | ⟨-, hrel⟩
    · exact heq.symm ▸ SameRegion.refl _
    · exact hrel.toSameRegion

/-- What every state of a run keeps. -/
theorem kept_of_reachable (fa : ℕ → ℤ) {base size : ℕ} (hend : base + size ≤ 2 ^ 64)
    (reserves : List (ℕ × ℕ))
    (hs : Reachable step anyStep (bootPages fa base size reserves) s) :
    s.Ok (reservedBuddy fa base size reserves).frameArray ∧ s.buddy.Unpaired ∧
      SameRegion (bootPages fa base size reserves).buddy s.buddy :=
  hs.invariant
    (P := fun s => s.Ok (reservedBuddy fa base size reserves).frameArray ∧ s.buddy.Unpaired ∧
      SameRegion (bootPages fa base size reserves).buddy s.buddy)
    ⟨ok_bootPages fa hend reserves, unpaired_bootPages fa base size reserves,
      SameRegion.refl _⟩
    fun _ _ _ h _ hstep =>
      ⟨h.1.step hstep, unpaired_step h.1 h.2.1 hstep, h.2.2.trans (sameRegion_step h.1 hstep)⟩

/-- When no block is allocated the free frames are those that are not reserved. -/
theorem Ok.freeFrames_eq (h : s.Ok fa₀) (hno : ∀ i k, ¬ s.buddy.AllocBlock i k) :
    s.buddy.freeFrames = {j | j < s.buddy.gTotalPages ∧ fa₀ j ≠ frameReserved} := by
  ext j
  simp only [freeFrames, Set.mem_ofPred_eq]
  refine and_congr_right fun hj => ?_
  rw [ne_eq, ← h.reserved j hj]
  constructor
  · intro hfree hres
    exact not_isFreeVal_reserved (hres ▸ hfree)
  · intro hres
    rcases h.inv.cover j hj (Set.notMem_empty j) with hr | ⟨i, k, hf, hmem⟩ | ⟨i, k, ha, -⟩
    · exact absurd hr hres
    · exact h.inv.isFreeVal hf hmem
    · exact absurd ha (hno i k)

end PageClient

open PageClient

end OscKernel
