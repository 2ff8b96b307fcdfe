/-
Calls so deep that the addresses come round.

A function that counts down by calls (`descent`) answers what it was given, in
the interpreter for every count (`descent_answers`). With a value of 65533 slots
in its frame it takes 65537 addresses for each call, and 65535 times that is all
addresses but one. For counts up to 65534 the code answers what the interpreter
answers (`generate_keeps_counts`). One call deeper the last callee leaves its
result where the argument of the first call was, and the code answers that
(`generate_loses_deep_count`).

The induction is on the count (`Descent.climbs`): it keeps in view what the last
frame leaves behind, and everything that no frame reaches.
-/
import Mathlib
import MirBackend.Proofs.Asm.RegisterRuns

namespace MirBackend.Asm

open Interp
open Machine (Goes)

variable {s : Machine} {k n : Nat} {fp back : Int32} {v : Felt} {p : Program}

-- ================================================================== counts

/-- The element that stands for a number. -/
def ofCount (n : Nat) : Felt := ⟨.ofNat n⟩

-- How the field represents a small count: by itself.
theorem toNat_ofCount (hn : n < 2147483647) : (ofCount n).word.toNat = n := by
  show n % 2 ^ 32 = n
  exact Nat.mod_eq_of_lt (Nat.lt_trans hn (by decide))

theorem canonical_ofCount (hn : n < 2147483647) : (ofCount n).Canonical := by
  show (ofCount n).word.toNat < 2147483647
  rwa [toNat_ofCount hn]

theorem ofInt64_ofNat (hn : n < 2147483647) :
    Felt.ofInt64 (Int64.ofNat n) = ofCount n := by
  refine Felt.eq_of_toNat ?_
  have hword := Felt.toNat_ofInt64 (Int64.ofNat n)
  rw [Int64.toInt_ofNat_of_lt (by omega)] at hword
  rw [toNat_ofCount hn]
  omega

theorem toInt64_ofCount (hn : n < 2147483647) :
    (ofCount n).toInt64 = Int64.ofNat n := by
  have hvalue : (Int64.ofNat n).toInt = n := Int64.toInt_ofNat_of_lt (by omega)
  rw [← ofInt64_ofNat hn, Felt.toInt64_ofInt64_of_lt (by omega) (by omega)]

/-- Counting down by one. -/
theorem ofCount_succ_sub_one (hn : n + 1 < 2147483647) :
    ofCount (n + 1) - Felt.ofInt64 1 = ofCount n := by
  refine Felt.eq_of_toNat ?_
  rw [Felt.toNat_sub (canonical_ofCount hn) (Felt.canonical_ofInt64 _),
    toNat_ofCount hn, toNat_ofCount (by omega)]
  show (n + 1 + (2147483647 - 1)) % 2147483647 = n
  omega

/-- A count that is not over is not zero. -/
theorem isZero_ofCount_succ (hn : n + 1 < 2147483647) :
    (ofCount (n + 1)).isZero = false := by
  rw [Bool.eq_false_iff, Ne, Felt.isZero_iff, toNat_ofCount hn]
  exact Nat.succ_ne_zero n

/-- Two addresses of a machine of `2 ^ 32` words are different if their numbers
are. -/
theorem ofNat_ne {i j : Nat} (hi : i < 2 ^ 32) (hj : j < 2 ^ 32) (h : i ≠ j) :
    Int32.ofNat i ≠ Int32.ofNat j := by
  intro heq
  have hsum : (0 : Int32) + Int32.ofNat i = 0 + Int32.ofNat j := by rw [heq]
  exact h (add_ofNat_inj hi hj hsum)

-- ======================================================= in the interpreter

/-- A count as a value. -/
def countValue (n : Nat) : Value := ⟨feltSlots (ofCount n), 0⟩

/-- The program stops at zero. -/
theorem branch_zero {fr : Frame}
    (h : fr[(0 : ValueId)]? = some (countValue 0)) :
    nextOf fr (some (.branch (.value 0) 2 3)) = some (.block 3) := by
  have hlook : lookScalar fr (.value 0) = some 0 :=
    lookScalar_eq_some.mpr ⟨_, h, rfl⟩
  rw [nextOf, hlook]
  rfl

/-- Above zero it goes down one level. -/
theorem branch_succ (hn : n + 1 < 2147483647) {fr : Frame}
    (h : fr[(0 : ValueId)]? = some (countValue (n + 1))) :
    nextOf fr (some (.branch (.value 0) 2 3)) = some (.block 2) := by
  have hlook : lookScalar fr (.value 0) = some (ofCount (n + 1)).toInt64 :=
    lookScalar_eq_some.mpr ⟨_, h, rfl⟩
  have hne : (ofCount (n + 1)).toInt64 ≠ 0 := by
    intro h0
    have hzero := isZero_ofCount_succ hn
    rw [← Felt.ofInt64_toInt64 (canonical_ofCount hn), h0] at hzero
    cases hzero
  rw [nextOf, hlook, Option.map_some, if_pos hne]

/-- The argument of the next level is one less. -/
theorem exec_countdown (hn : n + 1 < 2147483647) {fr : Frame}
    (h : fr[(0 : ValueId)]? = some (countValue (n + 1))) (f : Func)
    (w : Interp.Machine) :
    exec ⟨[]⟩ refuse f fr (.binary .sub 2 (.value 0) (.int 1)) w
      = .ok (fr.insert 2 (countValue n)) w := by
  have hsub : binaryOp .sub (countValue (n + 1)).slots [1]
      = .ok (countValue n).slots := by
    show Except.ok
      (feltSlots (Felt.ofInt64 (ofCount (n + 1)).toInt64 - Felt.ofInt64 1)) = _
    rw [Felt.ofInt64_toInt64 (canonical_ofCount hn), ofCount_succ_sub_one hn]
    rfl
  exact exec_binary_ok_iff.mpr ⟨_, ⟨[1], 0⟩, _, h, rfl, hsub, rfl, rfl⟩

/-- The interpreter counts down and answers what was given, in four steps for
each call. -/
theorem descent_answers (t : Ty) (w : Interp.Machine) (hn : n < 2147483647) :
    Answers ⟨[descent t]⟩ .none 0 [countValue n] w (4 * n + 2)
      [countValue n] w := by
  induction n with
  | zero =>
      refine ⟨descent t, _, [], rfl, rfl, rfl, rfl, ?_⟩
      exact .jump rfl rfl trivial (branch_zero rfl) (by decide) rfl rfl
        (.ret rfl rfl rfl)
  | succ n ih =>
      obtain ⟨f, b, ps, hf, -, hb, hps, hbody⟩ := ih (by omega)
      cases hf
      obtain ⟨N, hN⟩ : ∃ N, 4 * n + 2 = N := ⟨_, rfl⟩
      rw [hN] at hbody
      rw [show 4 * (n + 1) + 2 = N + 1 + 1 + 1 + 1 by omega]
      refine ⟨descent t, _, [], rfl, rfl, rfl, rfl, ?_⟩
      refine .jump rfl rfl trivial (branch_succ hn rfl) (by decide) rfl rfl ?_
      refine .instr rfl (exec_countdown hn rfl _ _) ?_
      exact .call rfl rfl rfl hb hps hbody (Or.inr rfl) (.ret rfl rfl rfl)

-- ==================================================================== code

/-- Words in pairs, as many as a power of two. -/
def words : Nat → Ty
  | 0 => .u32
  | n + 1 => .tuple [words n, words n]

/-- A type of 65533 slots. -/
def wide : Ty := .tuple (.felt :: (List.range 14).map fun n => words (n + 1))

/-- What `descent wide` is compiled to. -/
def descentCode : List Insn :=
  [{ opcode := .jnzFpImm, off0 := -4, imm := .literal 2 "deep_down" },
   { opcode := .jmpAbsImm, imm := .literal 6 "deep_done" },
   { opcode := .storeSubFpImm, off0 := -4, off2 := 65533, imm := .literal 1 },
   { opcode := .callAbsImm, off0 := 65535, imm := .literal 0 "deep", comment := "call deep" },
   { opcode := .storeDerefFp, off0 := -4, off2 := -3 },
   { opcode := .ret },
   { opcode := .storeImm, off2 := -3 },
   { opcode := .ret }]

/-- Nothing is copied from slots onto themselves, however many there are. -/
theorem copySlots_apart : Builder.copySlots
    = fun src dst n => if src = dst then pure
    () else Builder.copySlots src dst n := by
  funext src dst n
  split
  · next h =>
    subst h
    funext b
    exact copyRun_self _ _ b
  · rfl

/-- The code that is generated for the descent, in full. -/
theorem generate_descent : ∃ p, generate ⟨[descent wide]⟩ {} = .ok p
    ∧ p.items = descentCode.map .insn ∧ p.entrypoints["deep"]?
    = some ⟨0, some [1], some [1]⟩ := by
  have hgen : (generate ⟨[descent wide]⟩ {}).toOption.map
      (fun p => (p.items, p.entrypoints["deep"]?))
        = some (descentCode.map .insn, some ⟨0, some [1], some [1]⟩) := by
    have horder : Generator.blockOrder (descent wide) = [0, 1, 2, 3] := rfl
    -- to run the rest, the slots of the wide value must not be gone through one
    -- by one
    unfold generate Generator.functions Generator.functions
      Generator.function Generator.body
    rw [horder]
    unfold Generator.blocks Generator.blocks Generator.blocks
      Generator.blocks Generator.blocks
    unfold Generator.block Scope.instr Scope.code Scope.define Scope.moveTo
    rw [copySlots_apart]
    decide +kernel
  cases hp : generate ⟨[descent wide]⟩ {} with
  | error e =>
      rw [hp] at hgen
      cases hgen
  | ok p =>
      rw [hp] at hgen
      exact ⟨p, rfl, congrArg Prod.fst (Option.some.inj hgen),
        congrArg Prod.snd (Option.some.inj hgen)⟩

/-- The machine executes the instruction at its place. -/
theorem step_descentCode (i : Nat) (hi : i < descentCode.length)
    (hpc : s.pc = Int32.ofNat i) :
    Machine.step descentCode s = Machine.execute descentCode[i] s := by
  have hlen : descentCode.length = 8 := rfl
  have hadmits : ∀ x ∈ descentCode, Machine.admits x = true := by decide
  rw [Machine.step, hpc, Machine.fetch?_ofNat descentCode (by omega),
    List.getElem?_eq_getElem hi]
  exact if_pos (hadmits _ (List.getElem_mem hi))

-- =================================================================== steps

/-- The link of a frame: where the frame of the caller is, and where to go on
there. -/
structure Machine.Linked (s : Machine) (fp back : Int32) : Prop where
  fp : s.slot? (-2) = some (.ofWord fp)
  back : s.slot? (-1) = some (.ofWord back)

/-- The machine has returned from a frame with a result, and nothing else has
changed. -/
structure Machine.Back (s s' : Machine) (v : Felt)
    (fp back : Int32) : Prop where
  pc : s'.pc = back
  fp : s'.fp = fp
  result : s'.read? (s.fp + -3) = some v
  kept : ∀ off, off ≠ -3 → s'.read? (s.fp + off) = s.slot? off

/-- What has changed when the machine is back from a count to zero: the frames
lie one above the other, and the last holds its result and its link. -/
structure Machine.Climbed (s s' : Machine) (k : Nat)
    (fp back : Int32) : Prop where
  pc : s'.pc = back
  fp : s'.fp = fp
  result : s'.read? (s.fp + -3) = some (ofCount k)
  last : s'.read? (s.fp + (Int32.ofNat (65537 * k) + -3)) = some (ofCount 0)
  link : ∃ pc, s'.read? (s.fp + (Int32.ofNat (65537 * k) + -1))
    = some (.ofWord pc)
  kept : ∀ o : Nat, 65537 * k ≤ o → o < 2 ^ 32 - 3 →
    s'.read? (s.fp + Int32.ofNat o) = s.slot? (Int32.ofNat o)

namespace Descent

/-- A return goes where the link says. -/
theorem returns (hpc : s.pc = 5 ∨ s.pc = 7) (hlink : s.Linked fp back) :
    Machine.step descentCode s = some { s with pc := back, fp := fp } := by
  have hret : Machine.step descentCode s
      = Machine.execute { opcode := .ret } s := by
    rcases hpc with h | h
    · exact step_descentCode 5 (by decide) h
    · exact step_descentCode 7 (by decide) h
  rw [hret]
  simp only [Machine.execute, hlink.fp, hlink.back]
  rfl

/-- A result is stored and brought to the caller. -/
theorem delivers (hpc : s.pc = 4 ∨ s.pc = 6) (hlink : s.Linked fp back)
    (hstep : Machine.step descentCode s = s.store (-3) (some v)) :
    ∃ s', Goes descentCode s s' ∧ Machine.Back s s' v fp back := by
  obtain ⟨s₁, hs₁⟩ : ∃ s₁ : Machine,
      s₁ = { s.setSlot (-3) v with pc := s.pc + 1 } := ⟨_, rfl⟩
  have hgo : Goes descentCode s s₁ := .single (by rw [hstep, hs₁]; rfl)
  have hread (off : Int32) :
      s₁.read? (s.fp + off) = if -3 = off then some v else s.slot? off := by
    have hwritten : s₁.read? (s.fp + off)
        = (s.write (s.fp + -3) v).read? (s.fp + off) := by
      rw [hs₁]
      rfl
    simp only [hwritten, Machine.read?_write, Int32.add_right_inj]
    rfl
  have hslot (off : Int32) : s₁.slot? off = s₁.read? (s.fp + off) := by
    rw [hs₁]
    rfl
  have hlink₁ : s₁.Linked fp back :=
    ⟨(hslot _).trans ((hread _).trans hlink.fp),
    (hslot _).trans ((hread _).trans hlink.back)⟩
  have hpc₁ : s₁.pc = 5 ∨ s₁.pc = 7 := by
    rw [hs₁]
    rcases hpc with h | h
    · exact Or.inl (by rw [h]; rfl)
    · exact Or.inr (by rw [h]; rfl)
  exact ⟨_, hgo.tail (returns hpc₁ hlink₁), rfl, rfl, hread (-3),
    fun off hoff => (hread off).trans (if_neg hoff.symm)⟩

/-- Zero and the other counts are told apart. -/
theorem tests (hpc : s.pc = 0) (harg : s.slot? (-4) = some v) :
    Machine.step descentCode s
        = some { s with pc := if v.isZero then 1 else 2 } := by
  rw [step_descentCode 0 (by decide) hpc]
  show (s.slot? (-4) >>= fun v =>
    some { s with pc := if v.isZero then s.pc + 1 else s.pc + 2 }) = _
  rw [harg, hpc]
  rfl

/-- Zero is answered at once. -/
theorem bottoms (hpc : s.pc = 0) (harg : s.slot? (-4) = some (ofCount 0))
    (hlink : s.Linked fp back) :
    ∃ s', Goes descentCode s s' ∧ Machine.Back s s' (ofCount 0) fp back := by
  obtain ⟨s₁, hs₁⟩ : ∃ s₁ : Machine, s₁ = { s with pc := 1 } := ⟨_, rfl⟩
  obtain ⟨s₂, hs₂⟩ : ∃ s₂ : Machine, s₂ = { s with pc := 6 } := ⟨_, rfl⟩
  have hfall : Machine.step descentCode s = some s₁ :=
    (tests hpc harg).trans (by rw [hs₁]; rfl)
  have hjump : Machine.step descentCode s₁ = some s₂ := by
    rw [step_descentCode 1 (by decide) (by rw [hs₁]; rfl), hs₁, hs₂]
    rfl
  have hgo : Goes descentCode s s₁ := .single hfall
  have hlink₂ : s₂.Linked fp back := by
    rw [hs₂]
    exact ⟨hlink.fp, hlink.back⟩
  obtain ⟨s', hgo', hback⟩ :=
    delivers (v := ofCount 0) (Or.inr (by rw [hs₂])) hlink₂
    (step_descentCode 6 (by decide) (by rw [hs₂]; rfl))
  rw [hs₂] at hback
  exact ⟨s', Relation.ReflTransGen.trans (hgo.tail hjump) hgo', hback.pc,
    hback.fp, hback.result, hback.kept⟩

/-- Another count is passed on less one, to a frame just above what is
passed. -/
theorem descends (hpc : s.pc = 0) (hk : k + 1 < 2147483647)
    (harg : s.slot? (-4) = some (ofCount (k + 1))) :
    ∃ s', Goes descentCode s s' ∧ s'.pc = 0 ∧ s'.fp = s.fp + 65537
      ∧ s'.slot? (-4) = some (ofCount k) ∧ s'.Linked s.fp 4
      ∧ ∀ off, off ≠ 65533 → off ≠ 65535 → off ≠ 65536 →
        s'.read? (s.fp + off) = s.slot? off := by
  obtain ⟨s₁, hs₁⟩ : ∃ s₁ : Machine, s₁ = { s with pc := 2 } := ⟨_, rfl⟩
  obtain ⟨s₂, hs₂⟩ : ∃ s₂ : Machine,
      s₂ = { s.setSlot 65533 (ofCount k) with pc := 3 } := ⟨_, rfl⟩
  obtain ⟨s₃, hs₃⟩ : ∃ s₃ : Machine,
    s₃ = { (s₂.setSlot 65535 (.ofWord s.fp)).setSlot 65536
    (.ofWord 4) with pc := 0, fp := s.fp + 65537 } := ⟨_, rfl⟩
  have hjump : Machine.step descentCode s = some s₁ := by
    rw [tests hpc harg, isZero_ofCount_succ hk, hs₁]
    rfl
  have hsub : Machine.step descentCode s₁ = some s₂ := by
    rw [step_descentCode 2 (by decide) (by rw [hs₁]; rfl), hs₁, hs₂]
    show Machine.store _ 65533 ((s.slot? (-4)).map (· - Felt.ofInt64 1)) = _
    rw [harg, Option.map_some, ofCount_succ_sub_one hk]
    rfl
  have hcall : Machine.step descentCode s₂ = some s₃ := by
    rw [step_descentCode 3 (by decide) (by rw [hs₂]; rfl), hs₃, hs₂]
    rfl
  have hread (off : Int32) : s₃.read? (s.fp + off) = if 65536
      = off then some (.ofWord 4)
      else if 65535 = off then some (.ofWord s.fp)
      else if 65533 = off then some (ofCount k) else s.slot? off := by
    have hwritten : s₃.read? (s.fp + off)
        = (((s.write (s.fp + 65533) (ofCount k)).write
        (s.fp + 65535) (.ofWord s.fp)).write (s.fp + 65536) (.ofWord 4)).read?
        (s.fp + off) := by
      rw [hs₃, hs₂]
      rfl
    simp only [hwritten, Machine.read?_write, Int32.add_right_inj]
    rfl
  have hslot (off : Int32) : s₃.slot? off
      = s₃.read? (s.fp + (65537 + off)) := by
    rw [← Int32.add_assoc, hs₃]
    rfl
  have hgo : Goes descentCode s s₁ := .single hjump
  exact ⟨s₃, (hgo.tail hsub).tail hcall, by rw [hs₃], by rw [hs₃],
    (hslot _).trans (hread _),
    ⟨(hslot _).trans (hread _), (hslot _).trans (hread _)⟩,
    fun off h h' h'' => by rw [hread, if_neg h''.symm,
    if_neg h'.symm, if_neg h.symm]⟩

/-- Behind the call the parameter is answered, whatever it holds. -/
theorem ascends (hpc : s.pc = 4) (harg : s.slot? (-4) = some v)
    (hlink : s.Linked fp back) :
    ∃ s', Goes descentCode s s' ∧ Machine.Back s s' v fp back := by
  refine delivers (Or.inl hpc) hlink ?_
  rw [step_descentCode 4 (by decide) hpc]
  show Machine.store s (-3) (s.slot? (-4)) = _
  rw [harg]

-- ==================================================================== runs

/-- A count whose frames do not come round is answered. -/
theorem climbs (hk : k ≤ 65534) (hpc : s.pc = 0)
    (harg : s.slot? (-4) = some (ofCount k)) (hlink : s.Linked fp back) :
    ∃ s', Goes descentCode s s' ∧ Machine.Climbed s s' k fp back := by
  induction k generalizing s fp back with
  | zero =>
      obtain ⟨s', hgo, hback⟩ := bottoms hpc harg hlink
      refine ⟨s', hgo, hback.pc, hback.fp, hback.result, hback.result,
        ⟨_, (hback.kept (-1) (by decide)).trans hlink.back⟩,
        fun o _ ho => hback.kept _ ?_⟩
      exact ofNat_ne (j := 2 ^ 32 - 3) (by omega) (by omega) (by omega)
  | succ k ih =>
      obtain ⟨s₁, hgo₁, hpc₁, hfp₁, harg₁, hlink₁, hkept₁⟩ :=
        descends hpc (by omega) harg
      obtain ⟨s₂, hgo₂, hclimbed⟩ := ih (by omega) hpc₁ harg₁ hlink₁
      -- the frame of the callee, seen from that of the caller
      have haddr (off : Int32) : s₁.fp + off = s.fp + (65537 + off) := by
        rw [hfp₁, Int32.add_assoc]
      have hlast (off : Int32) : Int32.ofNat (65537 * (k + 1)) + off
          = 65537 + (Int32.ofNat (65537 * k) + off) := by
        rw [Nat.mul_succ, Nat.add_comm, Int32.ofNat_add, Int32.add_assoc]
        rfl
      have hbelow (o : Nat) (hlow : 65537 * (k + 1) ≤ o) (hhigh : o < 2 ^ 32) :
          s₂.read? (s.fp + Int32.ofNat o) = s.slot? (Int32.ofNat o) := by
        obtain ⟨c, rfl⟩ : ∃ c, o = 65537 + c := ⟨o - 65537, by omega⟩
        have hslot : Int32.ofNat (65537 + c) = 65537 + Int32.ofNat c :=
          Int32.ofNat_add _ _
        have hcallee := hclimbed.kept c (by omega) (by omega)
        rw [Machine.slot?, haddr, ← hslot] at hcallee
        rw [hcallee]
        exact hkept₁ _ (ofNat_ne (j := 65533) hhigh (by omega) (by omega))
          (ofNat_ne (j := 65535) hhigh (by omega) (by omega))
          (ofNat_ne (j := 65536) hhigh (by omega) (by omega))
      have hslot (off : Int32) : s₂.slot? off = s₂.read? (s.fp + off) := by
        rw [Machine.slot?, hclimbed.fp]
      have hlink₂ : s₂.Linked fp back :=
        ⟨(hslot _).trans
          ((hbelow (2 ^ 32 - 2) (by omega) (by omega)).trans hlink.fp),
          (hslot _).trans
          ((hbelow (2 ^ 32 - 1) (by omega) (by omega)).trans hlink.back)⟩
      obtain ⟨s₃, hgo₃, hback⟩ := ascends hclimbed.pc
        ((hslot _).trans
        ((hbelow (2 ^ 32 - 4) (by omega) (by omega)).trans harg)) hlink₂
      have hkept (off : Int32) (hoff : off ≠ -3) :
          s₃.read? (s.fp + off) = s₂.read? (s.fp + off) := by
        rw [← hclimbed.fp, hback.kept off hoff]
        rfl
      refine ⟨s₃, Relation.ReflTransGen.trans
        (Relation.ReflTransGen.trans hgo₁ hgo₂) hgo₃,
        hback.pc, hback.fp, hclimbed.fp ▸ hback.result, ?_, ?_,
          fun o hlow hhigh => ?_⟩
      · have hne : Int32.ofNat (65537 * (k + 1)) ≠ 0 :=
          ofNat_ne (j := 0) (by omega) (by omega) (by omega)
        rw [hkept _ (by grind), hlast, ← haddr, hclimbed.last]
      · have hne : Int32.ofNat (65537 * (k + 1)) ≠ -2 :=
          ofNat_ne (j := 2 ^ 32 - 2) (by omega) (by omega) (by omega)
        rw [hkept _ (by grind), hlast, ← haddr]
        exact hclimbed.link
      · rw [hkept _ (ofNat_ne (j := 2 ^ 32 - 3) (by omega)
          (by omega) (by omega)), hbelow o hlow (by omega)]

/-- One call deeper, the first frame finds the result of the last one in its
parameter. -/
theorem comes_round (hpc : s.pc = 0)
    (harg : s.slot? (-4) = some (ofCount 65535))
    (hback : s.slot? (-1) = some (.ofWord back)) :
    ∃ s', Goes descentCode s s' ∧ s'.pc = back ∧ s'.read?
      (s.fp + -3) = some (ofCount 0) := by
  obtain ⟨s₁, hgo₁, hpc₁, hfp₁, harg₁, hlink₁, hkept₁⟩ :=
    descends hpc (by omega) harg
  obtain ⟨s₂, hgo₂, hclimbed⟩ := climbs (Nat.le_refl _) hpc₁ harg₁ hlink₁
  have haddr (off : Int32) : s₁.fp + off = s.fp + (65537 + off) := by
    rw [hfp₁, Int32.add_assoc]
  have hslot (off : Int32) : s₂.slot? off = s₂.read? (s.fp + off) := by
    rw [Machine.slot?, hclimbed.fp]
  have hparam : s₂.slot? (-4) = some (ofCount 0) := by
    rw [hslot, ← hclimbed.last, haddr]
    rfl
  -- the link of the last frame is in the way as well, but not where to go on
  obtain ⟨fp, hfp⟩ := hclimbed.link
  have hlink : s₂.Linked fp back := by
    constructor
    · rw [hslot, ← hfp, haddr]
      rfl
    · have hcallee := hclimbed.kept (2 ^ 32 - 65538) (by omega) (by omega)
      rw [Machine.slot?, haddr] at hcallee
      have hfirst := hkept₁ (-1) (by decide) (by decide) (by decide)
      exact (hslot _).trans (hcallee.trans (hfirst.trans hback))
  obtain ⟨s₃, hgo₃, hdone⟩ := ascends hclimbed.pc hparam hlink
  exact ⟨s₃,
    Relation.ReflTransGen.trans (Relation.ReflTransGen.trans hgo₁ hgo₂) hgo₃,
    hdone.pc, hclimbed.fp ▸ hdone.result⟩

end Descent

-- ================================================================= answers

/-- What the code of a program leaves in the slot for its result is the
answer. -/
theorem call_descent (hitems : p.items = descentCode.map .insn)
    (hentry : p.entrypoints["deep"]? = some ⟨0, some [1], some [1]⟩) {a : Int64}
    (h : ∀ s : Machine, s.pc = 0 → s.slot? (-4) = some (Felt.ofInt64 a) →
      s.Linked 0 stopPc →
      ∃ s', Goes descentCode s s' ∧ s'.pc = stopPc ∧ s'.read?
        (s.fp + -3) = some v) :
    ∃ least, ∀ fuel, least ≤ fuel → p.call "deep"
      [a] fuel = some [v.toInt64] := by
  have hcode : p.code = descentCode := by
    rw [Program.code, hitems]
    rfl
  obtain ⟨hpc, hstarts⟩ :=
    startCall_starts (p := p) (e := ⟨0, some [1], some [1]⟩)
    [Felt.ofInt64 a] (n := 1) rfl (show 1 + 1 + 2 < 2 ^ 31 by omega)
  obtain ⟨s, hgo, hstop, hresult⟩ :=
    h _ hpc (hstarts.arg 0 _ rfl) ⟨hstarts.link.2, hstarts.link.1⟩
  have hread : s.readAll? (Int32.ofNat p.items.length + Int32.ofNat 1)
      [v].length = some [v] := by
    refine Machine.readAll?_eq_some fun i u hu => ?_
    obtain ⟨rfl, rfl⟩ : i = 0 ∧ v = u := by
      cases i with
      | zero => exact ⟨rfl, Option.some.inj hu⟩
      | succ i => cases hu
    rw [add_ofNat_zero, ← hresult]
    exact congrArg s.read? hstarts.results
  have hgo' :
      Goes p.code (p.startCall ⟨0, some [1], some [1]⟩ ([a].map Felt.ofInt64))
      s := by
    rwa [hcode]
  have hcall :=
    call_of_stops hentry rfl (by rw [hcode]; decide) hgo' hstop hread
  exact hcall

/-- As long as the addresses do not come round, the code answers the count. -/
theorem generate_keeps_counts : ∃ p, generate ⟨[descent wide]⟩ {}
    = .ok p ∧ ∀ n ≤ 65534,
    ∃ least, ∀ fuel, least ≤ fuel → p.call "deep"
      [Int64.ofNat n] fuel = some [Int64.ofNat n] := by
  obtain ⟨p, hp, hitems, hentry⟩ := generate_descent
  refine ⟨p, hp, fun n hn => ?_⟩
  rw [← toInt64_ofCount (n := n) (by omega)]
  refine call_descent hitems hentry fun s hpc harg hlink => ?_
  rw [Felt.ofInt64_toInt64 (canonical_ofCount (by omega))] at harg
  obtain ⟨s', hgo, hdone⟩ := Descent.climbs hn hpc harg hlink
  exact ⟨s', hgo, hdone.pc, hdone.result⟩

/-- One call deeper, the interpreter answers the count and the code answers
zero. -/
theorem generate_loses_deep_count : (descent wide).Typed ⟨[descent wide]⟩
    ∧ (∀ v ∈ (descent wide).params, ((descent wide).typeOf v).width = 1)
    ∧ (∃ w, call ⟨[descent wide]⟩ "deep" [65535] { limit := 300000 }
      = .ok [65535] w)
    ∧ ∃ p, generate ⟨[descent wide]⟩ {} = .ok p ∧ p.items.length = 8
      ∧ ∃ least, ∀ fuel, least ≤ fuel → p.call "deep"
      [65535] fuel = some [0] := by
  have hwidth : wide.width < 2 ^ 63 := by decide +kernel
  have hlookup : Module.lookup ⟨[descent wide]⟩ "deep" = some 0 := rfl
  have hanswers : Answers ⟨[descent wide]⟩ .none 0 (argValues [65535])
      (Interp.Machine.still {})
      262142 [countValue 65535] (Interp.Machine.still {}) :=
    descent_answers wide _ (n := 65535) (by omega)
  obtain ⟨w, hw, -⟩ :=
    hanswers.call_ok hlookup (s := { limit := 300000 }) rfl (by decide)
  obtain ⟨p, hp, hitems, hentry⟩ := generate_descent
  refine ⟨descent_typed hwidth,
    fun v hv => List.mem_singleton.mp hv ▸ rfl, ⟨w, hw⟩, p, hp,
    by rw [hitems]; rfl, ?_⟩
  refine call_descent (v := ofCount 0) hitems hentry fun s hpc harg hlink => ?_
  exact Descent.comes_round hpc harg hlink.back

end MirBackend.Asm
