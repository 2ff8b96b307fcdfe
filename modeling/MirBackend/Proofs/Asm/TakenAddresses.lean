/-
Addresses of values.

The interpreter makes a copy of a value whose address is taken, and the address
is that of the copy. The code has no copy: the address is that of the slots of
the value. So the two part when something is stored through the address and the
value is read afterwards, when the value is defined anew and the old one is read
through the address, or when two addresses of one value are used side by side.

They do not part otherwise. Where values lend their slots to one address at a
time, get them back only when the address cannot be used any more, and are read
only while the copy is what they are, the code answers what the interpreter
answers (`generate_preserves_lent_answers`).
-/
import Mathlib
import MirBackend.Proofs.Asm.FrameCalls

namespace MirBackend.Asm

open Interp

variable {m : Module} {f : Func} {p : Program}

/-- The code of a function that takes addresses of values answers what the
interpreter answers, as long as values are not read once something else was
stored in the slots that they lent. -/
theorem generate_preserves_lent_answers {metadata : Metadata} {k : FuncId}
    (hnames : (m.functions.map (·.name)).Nodup)
    (hgen : generate m metadata = .ok p) (hsize : p.items.length ≤ 2 ^ 30)
    (hk : m.func? k = some f) (hf : AddressLocal f) {args r : List Int64}
    {limit : Int} {w : Interp.Machine}
    (hcall : Interp.call m f.name args { limit } = .ok r w)
    (hkeeps : KeepsHome m k (argValues args) (Interp.Machine.still {}) k f) :
    ∃ least, ∀ fuel, least ≤ fuel → p.call f.name args fuel = some r := by
  obtain ⟨k', vs, n, hk', rfl, hanswers, -⟩ := Interp.call_answers hcall
  rw [Module.lookup_of_nodup hnames hk, Option.some.injEq] at hk'
  subst hk'
  exact hf.answers hnames hgen hsize hk hanswers hkeeps

/-- The argument is read when its address was taken, and then one more is stored
there. -/
def bump : Func :=
  { name := "bump"
    params := [0]
    returns := [.felt]
    types := .ofList ([(0, .felt), (1, .ptr .felt), (2, .felt), (3, .felt)] :
        List (ValueId × Ty))
    nextValue := 4
    blocks := [some { name := "entry", term := some (.ret [.value 3]),
                      instrs := [.addressOf 1 0,
                                 .binary .add 2 (.value 0) (.int 1),
                                 .store (.value 1) (.value 2) .felt,
                                 .load 3 .felt (.value 1)] }] }

-- A function that takes the address of its parameter, adds to it and reads it
-- back.
theorem bump_instr {i : Instr} (hi : bump.HasInstr i) : i = .addressOf 1 0
    ∨ i = .binary .add 2 (.value 0) (.int 1) ∨ i = .store
    (.value 1) (.value 2) .felt
    ∨ i = .load 3 .felt (.value 1) := by
  simpa using Func.hasInstr_of_blocks_eq (f := bump) rfl hi

theorem bump_address {v : ValueId} (h : FrameAddress bump v) : v = 1 := by
  induction h with
  | home hhome =>
      obtain ⟨i, hi, hhome⟩ := hhome
      obtain rfl | rfl | rfl | rfl := bump_instr hi <;> cases hhome
      rfl
  | step hi hderives _ ih =>
    obtain rfl | rfl | rfl | rfl := bump_instr hi <;> cases hderives

theorem bump_taken {d h : ValueId} (hi : bump.HasInstr (.addressOf d h)) :
    d = 1 ∧ h = 0 := by
  obtain hi | hi | hi | hi := bump_instr hi <;> cases hi
  exact ⟨rfl, rfl⟩

/-- The address goes nowhere but to memory. -/
theorem bump_local : AddressLocal bump := by
  refine ⟨fun i hi => ?_, fun c blk tm hc htm => ?_, fun p hp => ?_,
    ⟨by decide +kernel, ?_⟩, ⟨?_, ?_⟩, ⟨?_, ?_, ?_⟩⟩
  · obtain rfl | rfl | rfl | rfl := bump_instr hi
    · exact .addressOf rfl
    · exact .fits ⟨rfl, rfl, rfl⟩
    · exact .fits fun _ => rfl
    · exact .fits rfl
  · obtain ⟨-, rfl⟩ := Func.block?_of_blocks_eq rfl hc
    cases htm
    intro p hp
    obtain rfl := List.mem_singleton.mp hp
    rfl
  · obtain rfl := List.mem_singleton.mp hp
    rfl
  · intro i hi d hd n hn
    obtain rfl | rfl | rfl | rfl := bump_instr hi
    · obtain rfl := List.mem_singleton.mp hd
      cases hn
      decide
    · obtain rfl := List.mem_singleton.mp hd
      cases hn
      decide
    · cases hd
    · obtain rfl := List.mem_singleton.mp hd
      cases hn
      decide
  · intro v hv
    obtain rfl := bump_address hv
    exact ⟨by decide, by decide⟩
  · intro c blk j i hc _ hj v hv hva
    obtain ⟨rfl, rfl⟩ := Func.block?_of_blocks_eq rfl hc
    obtain rfl := bump_address hva
    have hdef : bump.DefinedAt 0 0 1 := ⟨_, _, hc, rfl, List.mem_cons_self⟩
    match j with
    | 0 =>
        cases hj
        simp [Instr.uses, Instr.operands, Operand.ids, Operand.id?] at hv
    | j + 1 => exact Or.inr ⟨0, 0, hdef, Or.inl ⟨rfl, Nat.zero_lt_succ j⟩⟩
  · intro d h hi hfa
    obtain ⟨-, rfl⟩ := bump_taken hi
    cases bump_address hfa
  · intro d d' h b j hi hi' _ _ _
    rw [(bump_taken hi).1, (bump_taken hi').1]
  · rintro d h b j hi - ⟨blk, i, hb, hj, hmem⟩ -
    obtain ⟨-, rfl⟩ := bump_taken hi
    obtain rfl | rfl | rfl | rfl :=
      bump_instr ⟨b, blk, hb, List.mem_of_getElem? hj⟩ <;>
      simp [Instr.dests] at hmem

/-- The frame in which the function starts on the argument five, and with the
address. -/
def bumpFrame : Frame := (∅ : Frame).insert 0 ⟨[5], 0⟩

def bumpTaken : Frame := bumpFrame.insert 1 ⟨[1], 0⟩

/-- The memory once it holds a copy of the argument. -/
def bumpMemory : Memory :=
  Memory.write { size := 2, room := Storage.regrown 1 2 } 1 [5]

/-- Frame and machine before each of the instructions, and at the end. -/
def bumpState : Nat → Frame × Interp.Machine
  | 0 => (bumpFrame, Interp.Machine.still {})
  | 1 => (bumpTaken, { Interp.Machine.still {} with memory := bumpMemory })
  | 2 => (bumpTaken.insert 2 ⟨[6], 0⟩,
      { Interp.Machine.still {} with memory := bumpMemory })
  | 3 => (bumpTaken.insert 2 ⟨[6], 0⟩,
      { Interp.Machine.still {} with memory := bumpMemory.write 1 [6] })
  | _ => ((bumpTaken.insert 2 ⟨[6], 0⟩).insert 3 ⟨[6], 0⟩,
      { Interp.Machine.still {} with memory := bumpMemory.write 1 [6] })

/-- The places that the function comes to on the argument five. -/
theorem bump_visits {k : FuncId} {cur : BlockId} {is : List Instr} {fr : Frame}
    {w : Interp.Machine}
    (h : Visits ⟨[bump]⟩ 0 (argValues [5])
      (Interp.Machine.still {}) k cur is fr w) :
    k = 0 ∧ cur = 0 ∧ ∃ j ≤ 4,
        is = [.addressOf 1 0, .binary .add 2 (.value 0) (.int 1),
        .store (.value 1) (.value 2) .felt, .load 3 .felt (.value 1)].drop j
      ∧ fr = (bumpState j).1 ∧ w = (bumpState j).2 := by
  refine visits_straight (f := bump) rfl (by decide) (fun fr c h => ?_) rfl
    (fun j i hi => ?_) h
  · obtain ⟨_, _, hnext⟩ := Option.map_eq_some_iff.mp h
    cases hnext
  · match j with
    | 0 | 1 | 2 | 3 =>
        cases hi
        rfl
    | j + 4 => cases hi

/-- The store and the load keep to the copy, and the argument is read before the
store. -/
theorem bump_keeps :
    KeepsHome ⟨[bump]⟩ 0 (argValues [5]) (Interp.Machine.still {}) 0 bump := by
  have htaken : bump.HasInstr (.addressOf 1 0) :=
    ⟨0, _, rfl, List.mem_cons_self⟩
  have hnone {r : ValueId} {t : Ty} (hi : bump.HasInstr (.frameAlloc r t)) :
      False := by
    obtain hi | hi | hi | hi := bump_instr hi <;> cases hi
  -- a store and a load go to the only word of the copy
  have haccess {fr : Frame} (hlook : lookScalar fr (.value 1) = some 1)
      {o : Operand} {t : Ty}
      (heq : (o, t) = (.value 1, .felt)) : t.Flat
      ∧ ∃ i' r h v k start a, bump.HasInstr i'
      ∧ homeOf? i' = some (r, h) ∧ o = .value v ∧ Derived bump r v k
      ∧ lookScalar fr (.value r) = some start
      ∧ lookScalar fr o = some a ∧ start ≤ a
      ∧ ∀ m, roomOf? bump i' = some m →
      a.toInt + t.width ≤ start.toInt + m.toInt := by
    cases heq
    refine ⟨.scalar rfl fun _ _ h => (by cases h), _, 1, 0, 1, 0, 1, 1, htaken,
      rfl, rfl, .refl, hlook, hlook, by decide, fun m hm => ?_⟩
    cases hm
    decide
  refine ⟨fun cur i is fr w hv => ?_,
    fun cur blk j fr w hb hj hv r v huse hi _ => ?_⟩
  · obtain ⟨-, -, j, hj, his, rfl, rfl⟩ := bump_visits hv
    match j, hj with
    | 0, _ | 1, _ =>
        cases his
        exact ⟨fun o t h => (by cases h), fun d t v r u k a h => (by cases h),
          fun d l r y z h => (by cases h)⟩
    | 2, _ =>
        cases his
        exact ⟨fun o t h => haccess rfl (Option.some.inj h).symm,
          fun d t v r u k a h => (by cases h), fun d l r y z h => (by cases h)⟩
    | 3, _ =>
        cases his
        exact ⟨fun o t h => haccess rfl (Option.some.inj h).symm,
          fun d t v r u k a _ hi => (hnone hi).elim,
          fun d l r y z h => (by cases h)⟩
    | 4, _ => cases his
  · obtain ⟨rfl, rfl⟩ := bump_taken hi
    obtain ⟨-, rfl⟩ := Func.block?_of_blocks_eq rfl hb
    obtain ⟨-, -, j', hj', his, rfl, rfl⟩ := bump_visits hv
    obtain rfl : j = j' := by
      have := congrArg List.length his
      simp only [List.length_drop, List.length_cons, List.length_nil] at this hj
      omega
    -- the argument is read by the first two instructions only
    intro y a hy ha l z hz
    match j, hj' with
    | 0, _ => cases ha
    | 1, _ =>
        cases hy
        cases ha
        match l with
        | 0 =>
            cases hz
            rfl
        | l + 1 => cases hz
    | 2, _ | 3, _ | 4, _ => exact absurd huse (by decide)

/-- The argument is in its slot when it is read, and what was stored comes
back. -/
theorem generate_preserves_lent_answers_bump : AddressLocal bump
    ∧ KeepsHome ⟨[bump]⟩ 0 (argValues [5]) (Interp.Machine.still {}) 0 bump
    ∧ (∃ w, call ⟨[bump]⟩ "bump" [5] { limit := 5 } = .ok [6] w)
    ∧ ∃ p, generate ⟨[bump]⟩ {} = .ok p ∧ p.items.length = 5
      ∧ ∃ least, ∀ fuel, least ≤ fuel → p.call "bump" [5] fuel = some [6] := by
  have hgen : (generate ⟨[bump]⟩ {}).toOption.map (·.items.length)
      = some 5 := by decide +kernel
  cases hp : generate ⟨[bump]⟩ {} with
  | error e =>
      rw [hp] at hgen
      cases hgen
  | ok p =>
      rw [hp] at hgen
      have hitems : p.items.length = 5 := Option.some.inj hgen
      obtain ⟨w, hw⟩ : ∃ w, call ⟨[bump]⟩ bump.name [5] { limit := 5 }
        = .ok [6] w := ⟨_, rfl⟩
      exact ⟨bump_local, bump_keeps, ⟨w, hw⟩, p, rfl, hitems,
        generate_preserves_lent_answers (by decide) hp (by omega)
          (k := 0) rfl bump_local hw
          bump_keeps⟩

/-- A value that is read when something else was stored in its slots. -/
def overwrite : Func :=
  { name := "overwrite"
    params := [0]
    returns := [.felt]
    types := .ofList ([(0, .felt), (1, .ptr .felt)] : List (ValueId × Ty))
    nextValue := 2
    blocks := [some { name := "entry", term := some (.ret [.value 0]),
                      instrs :=
                        [.addressOf 1 0, .store (.value 1) (.int 7) .felt] }] }

/-- The interpreter stores in the copy of the argument, the code in the
argument. -/
theorem generate_overwrites_lent_value : runAlone overwrite [5] = .ok [5]
    ∧ ∃ p, generate ⟨[overwrite]⟩ {} = .ok p ∧ p.call "overwrite"
    [5] 3 = some [7] := by
  have hgen : (generate ⟨[overwrite]⟩ {}).toOption.bind
      (·.call "overwrite" [5] 3) = some [7] := by
    decide +kernel
  refine ⟨rfl, ?_⟩
  cases hp : generate ⟨[overwrite]⟩ {} with
  | error e =>
      rw [hp] at hgen
      cases hgen
  | ok p =>
      rw [hp] at hgen
      exact ⟨p, rfl, hgen⟩

end MirBackend.Asm
