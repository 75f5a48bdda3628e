import Kaia.Istanbul.Types

/-! # Jump destinations

A jump may only go to a `JUMPDEST` that is an instruction and not an operand of a push. The operand
bytes of a code are marked in a bit vector, which the frames of a transaction share by code hash.
-/

namespace Kaia.VM

open List

def pushSize (op : UInt8) : ℕ :=
  if 0x60 ≤ op.toNat ∧ op.toNat ≤ 0x7f then op.toNat - 0x60 + 1 else 0

def instructions (code : Bytes) (pc : ℕ) : List ℕ :=
  if h : pc < code.length then pc :: instructions code (pc + 1 + pushSize (code.get ⟨pc, h⟩))
  else []
termination_by code.length - pc

def IsJumpdest (code : Bytes) (dest : ℕ) : Prop :=
  code[dest]? = some 0x5b ∧ dest ∈ instructions code 0

instance (code : Bytes) (dest : ℕ) : Decidable (IsJumpdest code dest) :=
  inferInstanceAs (Decidable (_ ∧ _))

/-! ## Bit vectors -/

variable (bits : Bytes) (pos : ℕ)

def bit : UInt8 := 0x80 >>> UInt8.ofNat (pos % 8)

def ones : UInt8 := 0xff >>> UInt8.ofNat (pos % 8)

/-- `bits[i] |= mask`, which panics outside of the vector. -/
def orAt (i : ℕ) (mask : UInt8) : Option Bytes :=
  bits[i]?.map fun b => bits.set i (b ||| mask)

def set : Option Bytes := orAt bits (pos / 8) (bit pos)

def set8 : Option Bytes := do
  let bits ← orAt bits (pos / 8) (ones pos)
  orAt bits (pos / 8 + 1) (~~~ ones pos)

def codeSegment : Option Bool := bits[pos / 8]?.map (· &&& bit pos = 0)

/-- The two loops of `codeBitmap` over the operand bytes, by eight and then one by one. -/
def setOperand (bits : Bytes) (pc numbits : ℕ) : Option Bytes :=
  if 8 ≤ numbits then do
    let bits ← set8 bits pc
    setOperand bits (pc + 8) (numbits - 8)
  else if 0 < numbits then do
    let bits ← set bits pc
    setOperand bits (pc + 1) (numbits - 1)
  else some bits
termination_by numbits

def codeBitmapFrom (code : Bytes) (pc : ℕ) (bits : Bytes) : Option Bytes :=
  if h : pc < code.length then do
    let numbits := pushSize (code.get ⟨pc, h⟩)
    let bits ← setOperand bits (pc + 1) numbits
    codeBitmapFrom code (pc + 1 + numbits) bits
  else some bits
termination_by code.length - pc

def codeBitmap (code : Bytes) : Option Bytes :=
  codeBitmapFrom code 0 (replicate (code.length / 8 + 1 + 4) 0)

/-! ## Contracts -/

/-- The length of a code is that of a slice. -/
structure Program where
  code : Bytes
  codeHash : Hash
  short : code.length < 2 ^ 63

/-- The frames of a transaction. Contracts with one code hash have one code. -/
structure Frames where
  program : ℕ → Program
  named : ∀ i j, (program i).codeHash = (program j).codeHash → (program i).codeHash ≠ 0 →
    (program i).code = (program j).code

/-- What is known of the codes: the map that the frames share, and what each of them keeps. -/
structure Analyses where
  jumpdests : Hash → Option Bytes
  analysis : ℕ → Option Bytes

namespace Frames

variable (f : Frames) (s : Analyses) (i : ℕ)

def isCode (udest : ℕ) : Option (Bool × Analyses) :=
  let keep (a : Bytes) (jumpdests : Hash → Option Bytes) : Option (Bool × Analyses) :=
    (codeSegment a udest).map (·, ⟨jumpdests, Function.update s.analysis i (some a)⟩)
  match s.analysis i with
  | some a => (codeSegment a udest).map (·, s)
  | none =>
    if (f.program i).codeHash ≠ 0 then
      match s.jumpdests (f.program i).codeHash with
      | some a => keep a s.jumpdests
      | none => do
        let a ← codeBitmap (f.program i).code
        keep a (Function.update s.jumpdests (f.program i).codeHash (some a))
    else do
      let a ← codeBitmap (f.program i).code
      keep a s.jumpdests

def validJumpdest (dest : BitVec 256) : Option (Bool × Analyses) :=
  if 2 ^ 64 ≤ dest.toNat ∨ (f.program i).code.length ≤ dest.toNat then some (false, s)
  else if (f.program i).code[dest.toNat]? ≠ some 0x5b then some (false, s)
  else f.isCode s i dest.toNat

def jumps (s : Analyses) : List (ℕ × BitVec 256) → Option (List Bool × Analyses)
  | [] => some ([], s)
  | (i, dest) :: js => do
    let (answer, s) ← f.validJumpdest s i dest
    let (answers, s) ← jumps s js
    some (answer :: answers, s)

end Frames

/-! ## Exactness -/

def Marked : Prop := ∃ b, bits[pos / 8]? = some b ∧ b &&& bit pos ≠ 0

variable {bits code : Bytes} {pos pc i n : ℕ}

theorem mask_and_bit_ne_zero (p q : ℕ) : (bit p &&& bit q ≠ 0 ↔ p % 8 = q % 8) ∧
    (ones p &&& bit q ≠ 0 ↔ p % 8 ≤ q % 8) ∧ (~~~ ones p &&& bit q ≠ 0 ↔ q % 8 < p % 8) := by
  have h : ∀ m n : Fin 8, let b := (0x80 : UInt8) >>> UInt8.ofNat n
      let o := (0xff : UInt8) >>> UInt8.ofNat m
      (0x80 >>> UInt8.ofNat m &&& b ≠ 0 ↔ m.val = n.val) ∧ (o &&& b ≠ 0 ↔ m.val ≤ n.val) ∧
        (~~~ o &&& b ≠ 0 ↔ n.val < m.val) := by decide
  exact h ⟨p % 8, by omega⟩ ⟨q % 8, by omega⟩

theorem or_and_ne_zero (b m k : UInt8) : (b ||| m) &&& k ≠ 0 ↔ b &&& k ≠ 0 ∨ m &&& k ≠ 0 := by
  have h : (b ||| m) &&& k = (b &&& k) ||| (m &&& k) := by
    apply UInt8.toBitVec_inj.1
    ext i hi
    simp [Bool.and_or_distrib_right]
  rw [h, ne_eq, UInt8.or_eq_zero_iff]
  tauto

/-- The vector has the length of the other one and these bits more. -/
structure Marks (bits bits' : Bytes) (P : ℕ → Prop) : Prop where
  length : bits'.length = bits.length
  marked : ∀ q, Marked bits' q ↔ Marked bits q ∨ P q

theorem orAt_spec (mask : UInt8) (h : i < bits.length) :
    ∃ bits', orAt bits i mask = some bits' ∧
      Marks bits bits' fun q => q / 8 = i ∧ mask &&& bit q ≠ 0 := by
  rw [orAt, getElem?_eq_getElem h]
  refine ⟨_, rfl, length_set, fun q => ?_⟩
  by_cases hq : q / 8 = i
  · subst hq
    simp [Marked, h, or_and_ne_zero]
  · simp [Marked, getElem?_set_ne (Ne.symm hq), hq]

theorem set_spec (h : pos / 8 < bits.length) :
    ∃ bits', set bits pos = some bits' ∧ Marks bits bits' (· = pos) := by
  obtain ⟨bits', hset, hlength, hmarked⟩ := orAt_spec (bit pos) h
  refine ⟨bits', hset, hlength, fun q => ?_⟩
  rw [hmarked, (mask_and_bit_ne_zero pos q).1]
  exact or_congr Iff.rfl (by omega)

theorem set8_spec (h : pos / 8 + 1 < bits.length) :
    ∃ bits', set8 bits pos = some bits' ∧ Marks bits bits' fun q => pos ≤ q ∧ q < pos + 8 := by
  obtain ⟨bits₁, hset₁, hlength₁, hmarked₁⟩ := orAt_spec (ones pos) (by omega : pos / 8 < bits.length)
  obtain ⟨bits₂, hset₂, hlength₂, hmarked₂⟩ :=
    orAt_spec (~~~ ones pos) (by omega : pos / 8 + 1 < bits₁.length)
  refine ⟨bits₂, by rw [set8, hset₁]; exact hset₂, by omega, fun q => ?_⟩
  obtain ⟨-, hones, hzeros⟩ := mask_and_bit_ne_zero pos q
  rw [hmarked₂, hmarked₁, hones, hzeros, or_assoc]
  exact or_congr Iff.rfl (by omega)

theorem setOperand_spec (h : (pc + n) / 8 < bits.length) :
    ∃ bits', setOperand bits pc n = some bits' ∧ Marks bits bits' fun q => pc ≤ q ∧ q < pc + n := by
  fun_induction setOperand bits pc n with
  | case1 bits pc n hn ih =>
    obtain ⟨bits₁, hset, hlength₁, hmarked₁⟩ := set8_spec (by omega : pc / 8 + 1 < bits.length)
    obtain ⟨bits₂, hrest, hlength₂, hmarked₂⟩ := ih bits₁ (by omega)
    refine ⟨bits₂, by rw [hset]; exact hrest, by omega, fun q => ?_⟩
    rw [hmarked₂, hmarked₁, or_assoc]
    exact or_congr Iff.rfl (by omega)
  | case2 bits pc n hn hpos ih =>
    obtain ⟨bits₁, hset, hlength₁, hmarked₁⟩ := set_spec (by omega : pc / 8 < bits.length)
    obtain ⟨bits₂, hrest, hlength₂, hmarked₂⟩ := ih bits₁ (by omega)
    refine ⟨bits₂, by rw [hset]; exact hrest, by omega, fun q => ?_⟩
    rw [hmarked₂, hmarked₁, or_assoc]
    exact or_congr Iff.rfl (by omega)
  | case3 bits pc n hn hpos => exact ⟨bits, rfl, rfl, fun q => by simp; omega⟩

theorem pushSize_le (op : UInt8) : pushSize op ≤ 32 := by
  rw [pushSize]
  split <;> omega

theorem le_of_mem_instructions {q : ℕ} (h : q ∈ instructions code pc) : pc ≤ q := by
  fun_induction instructions code pc with
  | case1 pc hpc ih =>
    rcases mem_cons.mp h with rfl | h
    · exact le_rfl
    · exact le_trans (by omega) (ih h)
  | case2 pc hpc => cases h

theorem codeBitmapFrom_spec (hlength : bits.length = code.length / 8 + 1 + 4) :
    ∃ bits', codeBitmapFrom code pc bits = some bits' ∧ bits'.length = bits.length ∧
      ∀ q, q < code.length →
        (Marked bits' q ↔ Marked bits q ∨ pc ≤ q ∧ q ∉ instructions code pc) := by
  fun_induction codeBitmapFrom code pc bits with
  | case1 pc bits hpc numbits ih =>
    have hle := pushSize_le (code.get ⟨pc, hpc⟩)
    obtain ⟨bits₁, hset, hlength₁, hmarked₁⟩ : ∃ bits', setOperand bits (pc + 1) numbits = _ ∧ _ :=
      setOperand_spec (by omega)
    obtain ⟨bits₂, hrest, hlength₂, hmarked₂⟩ := ih bits₁ (by omega)
    refine ⟨bits₂, by rw [hset]; exact hrest, by omega, fun q hq => ?_⟩
    have hcons : instructions code pc = pc :: instructions code (pc + 1 + numbits) := by
      rw [instructions, dif_pos hpc]
    rw [hmarked₂ q hq, hmarked₁, hcons, mem_cons, not_or, or_assoc]
    refine or_congr Iff.rfl ?_
    by_cases h : q ∈ instructions code (pc + 1 + numbits)
    · have hnext := le_of_mem_instructions h
      simp only [h, not_true_eq_false, and_false, or_false, iff_false]
      omega
    · simp only [h, not_false_eq_true, and_true]
      omega
  | case2 pc bits hpc => exact ⟨bits, rfl, rfl, fun q hq => by simp; omega⟩

theorem codeBitmap_spec (code : Bytes) :
    ∃ bits, codeBitmap code = some bits ∧ ∀ q, q < code.length →
      codeSegment bits q = some (decide (q ∈ instructions code 0)) := by
  obtain ⟨bits, hbits, hlength, hmarked⟩ : ∃ bits, codeBitmapFrom code 0 _ = some bits ∧ _ :=
    codeBitmapFrom_spec length_replicate
  refine ⟨bits, hbits, fun q hq => ?_⟩
  rw [length_replicate] at hlength
  have hget : bits[q / 8]? = some _ := getElem?_eq_getElem (by omega)
  have hclear : ¬ Marked (replicate (code.length / 8 + 1 + 4) 0) q := by
    rintro ⟨b, hb, hne⟩
    obtain rfl := eq_of_mem_replicate (mem_of_getElem? hb)
    exact hne UInt8.zero_and
  have hiff := (hmarked q hq).trans (or_iff_right hclear)
  simp only [Nat.zero_le, true_and, Marked, hget, Option.some.injEq, exists_eq_left', ne_eq,
    not_iff_not] at hiff
  rw [codeSegment, hget, Option.map_some]
  exact congrArg some (decide_eq_decide.mpr hiff)

/-! ## Sharing -/

namespace Frames

variable (f : Frames) {s : Analyses}

/-- Every analysis that is kept is that of the codes it is kept for. -/
structure Sound (s : Analyses) : Prop where
  jumpdests : ∀ hash a, s.jumpdests hash = some a → ∀ i, (f.program i).codeHash = hash →
    hash ≠ 0 → codeBitmap (f.program i).code = some a
  analysis : ∀ i a, s.analysis i = some a → codeBitmap (f.program i).code = some a

variable {f}

theorem Sound.keep {a : Bytes} (h : f.Sound s) (ha : codeBitmap (f.program i).code = some a) :
    f.Sound ⟨s.jumpdests, Function.update s.analysis i (some a)⟩ :=
  ⟨h.jumpdests, (Function.forall_update_iff s.analysis fun j o =>
    ∀ b, o = some b → codeBitmap (f.program j).code = some b).mpr
      ⟨fun _ hb => ha.trans hb, fun j _ => h.analysis j⟩⟩

theorem Sound.share {a : Bytes} (h : f.Sound s) (ha : codeBitmap (f.program i).code = some a) :
    f.Sound ⟨Function.update s.jumpdests (f.program i).codeHash (some a), s.analysis⟩ :=
  ⟨(Function.forall_update_iff s.jumpdests fun hash o => ∀ b, o = some b → ∀ j,
    (f.program j).codeHash = hash → hash ≠ 0 → codeBitmap (f.program j).code = some b).mpr
      ⟨fun _ hb j hj hne => by rw [f.named j i hj (hj ▸ hne), ha, hb],
        fun hash _ => h.jumpdests hash⟩, h.analysis⟩

theorem isCode_spec (h : f.Sound s) {udest : ℕ} (hlt : udest < (f.program i).code.length) :
    ∃ s', f.isCode s i udest = some (decide (udest ∈ instructions (f.program i).code 0), s') ∧
      f.Sound s' := by
  obtain ⟨bits, hbits, hsegment⟩ := codeBitmap_spec (f.program i).code
  have hsegment := hsegment udest hlt
  unfold isCode
  dsimp only
  split
  · next a ha =>
    obtain rfl := Option.some.inj ((h.analysis i a ha).symm.trans hbits)
    exact ⟨s, by rw [hsegment]; rfl, h⟩
  · split
    · next hne =>
      split
      · next a ha =>
        obtain rfl := Option.some.inj ((h.jumpdests _ a ha i rfl hne).symm.trans hbits)
        exact ⟨_, by rw [hsegment]; rfl, h.keep hbits⟩
      · exact ⟨_, by rw [hbits, Option.bind_eq_bind, Option.bind_some, hsegment]; rfl,
          (h.share hbits).keep hbits⟩
    · exact ⟨_, by rw [hbits, Option.bind_eq_bind, Option.bind_some, hsegment]; rfl, h.keep hbits⟩

theorem validJumpdest_spec (h : f.Sound s) (i : ℕ) (dest : BitVec 256) :
    ∃ s', f.validJumpdest s i dest =
      some (decide (IsJumpdest (f.program i).code dest.toNat), s') ∧ f.Sound s' := by
  have hshort := (f.program i).short
  rw [validJumpdest]
  split
  · next hout =>
    have hnone : (f.program i).code[dest.toNat]? = none := getElem?_eq_none (by omega)
    exact ⟨s, by simp [IsJumpdest, hnone], h⟩
  · split
    · next hop => exact ⟨s, by simp [IsJumpdest, hop], h⟩
    · next hin hop =>
      obtain ⟨s', hcode, hs'⟩ := isCode_spec h (Nat.lt_of_not_le (not_or.mp hin).2)
      exact ⟨s', by simp [hcode, IsJumpdest, not_not.mp hop], hs'⟩

theorem Sound.jumps (h : f.Sound s) (js : List (ℕ × BitVec 256)) :
    ∃ s', f.jumps s js =
      some (js.map fun j => decide (IsJumpdest (f.program j.1).code j.2.toNat), s') := by
  induction js generalizing s with
  | nil => exact ⟨s, rfl⟩
  | cons j js ih =>
    obtain ⟨s₁, hjump, hs₁⟩ := validJumpdest_spec h j.1 j.2
    obtain ⟨s₂, hrest⟩ := ih hs₁
    exact ⟨s₂, by simp [Frames.jumps, hjump, hrest]⟩

/-- Every jump of a transaction is answered by the code alone, without a panic. -/
theorem jumps_exact (f : Frames) (js : List (ℕ × BitVec 256)) :
    ∃ s, f.jumps ⟨fun _ => none, fun _ => none⟩ js =
      some (js.map fun j => decide (IsJumpdest (f.program j.1).code j.2.toNat), s) :=
  have hnone : ∀ {a : Bytes}, none ≠ some a := nofun
  Sound.jumps ⟨fun _ _ h => absurd h hnone, fun _ _ h => absurd h hnone⟩ js

/-- A destination as data, a destination, and in the other frame a code without a hash. -/
def twoFrames : Frames where
  program i := if i = 0 then ⟨[0x60, 0x5b, 0x5b], 7, by decide⟩ else ⟨[0x5b], 0, by decide⟩
  named i j := by
    split <;> split <;> simp

theorem jumps_exact_twoFrames : ∃ s, twoFrames.jumps ⟨fun _ => none, fun _ => none⟩
    [(0, 1), (0, 2), (1, 0), (0, 2)] = some ([false, true, true, true], s) := by
  obtain ⟨s, hs⟩ := jumps_exact twoFrames [(0, 1), (0, 2), (1, 0), (0, 2)]
  exact ⟨s, hs.trans (congrArg (fun l => some (l, s)) (by decide +kernel))⟩

end Frames

end Kaia.VM
