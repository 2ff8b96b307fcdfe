/-
One instruction of a typed function in both worlds.

An instruction other than a call fills the slots of its destination with what
the interpreter computes for it (`instr_follows`). The destination is no
parameter, so nothing outside the frame changes, neither what was passed nor the
link nor any other frame.
-/
import Mathlib
import MirBackend.Proofs.Asm.Registers

namespace MirBackend.Asm

open Interp

variable {code : List Insn} {base : Nat} {t : Link.Table} {x : Scope}
  {L : Layout} {n : Nat} {b b' : Builder} {u : Unit} {fr fr₁ : Frame}
  {w w₁ : Interp.Machine} {σ : FrameSlots} {d : ValueId} {i : Instr} {y : Value}
  {gives : Frame → Slots → Prop}

/-- Code after which the frame has what the interpreter has. Nothing has changed
below the frame pointer, and nothing from the top of the frame on. -/
def Follows (code : List Insn) (base : Nat) (x : Scope)
    (L : Layout) (b b' : Builder) (σ : FrameSlots) (fr : Frame) : Prop :=
  ∃ σ', Leads code base b.code.length σ b'.code.length σ' ∧ x.Mirrors L fr σ'
    ∧ ∀ off : Int32, off.toInt < 0 ∨ b'.top ≤ off.toInt → σ' off = σ off

/-- A value that is no parameter lies in the frame above its pointer. -/
theorem Fills.follows (h : Fills code base x L n b b' d gives) (hx : x.Laid L)
    (hn : L.frameSize.toInt ≤ n) (hst : Standing code base t b')
    (hd : d ∉ x.func.params) (hfr : x.Mirrors L fr σ) (hy : gives fr y.slots) :
    Follows code base x L b b' σ (fr.insert d y) := by
  obtain ⟨s, hs, hrun⟩ := h.run
  obtain ⟨hlen, σ', hleads, hputs⟩ := hrun σ fr _ hfr hy
  obtain ⟨n', hn', hS'⟩ := h.stage
  have htop := hS'.top hst
  refine ⟨σ', hleads, hfr.define hx hn hs hlen hputs, fun off hoff => ?_⟩
  obtain ⟨-, ⟨-, hpos, -⟩ | ⟨hparam, -⟩⟩ := hx.span d s hs
  · refine hputs.other off (by omega) fun k hk heq => ?_
    have hplace := (hx.slot_place hs (i := k) (by omega)).1
    have hlt := hx.slot_lt hn hs (i := k) (by omega)
    rw [← heq] at hplace hlt
    omega
  · exact absurd hparam hd

/-- What the interpreter does in an instruction, the code of the instruction
does. -/
theorem instr_follows (hx : x.Laid L) (hplain : ∀ v, v ∉ x.static)
    (hS : Stage L 0 n b) (hst : Standing code base t b')
    (hf : x.func.Typed x.module) (hi : x.func.HasInstr i)
    (h : x.instr i b = .ok u b')
    (hrun : exec ⟨[]⟩ refuse x.func fr i w = .ok fr₁ w₁)
    (hfr : x.Mirrors L fr σ) : Follows code base x L b b' σ fr₁ := by
  have htyped := hf.instr i hi
  have hfixed := hf.fixed i hi
  have hwidth := hf.dest i hi
  -- no address is known statically, so every instruction is coded
  have hcode : x.code i b = .ok u b' := by
    rw [Scope.instr, if_neg] at h
    · exact h
    · simp [Scope.isStatic, hplain]
  -- what is taken out of a value is taken out of one that is laid out
  have hcounted {d : ValueId} {o : Operand} {off k : Int64}
      (h : x.extract d o off k b = .ok u b') :
      (x.func.operandType o).width < 2 ^ 63 := by
    obtain ⟨_, b₁, h₁, -⟩ := bind_ok_iff.mp h
    obtain ⟨-, v, s, rfl, -, hs, -⟩ := aggregate_ok hS h₁
    exact hf.width_lt hx.toLaid hs
  -- each kind is coded by the routine that fills its destination, and the
  -- interpreter gives what that routine puts there
  cases i with
  | assign d v ty =>
      obtain ⟨y, hy, rfl, rfl⟩ := exec_assign_ok_iff.mp hrun
      obtain ⟨hv, hty⟩ := htyped
      have hsame : (if ty.isMissing then x.func.typeOf d else ty)
          = x.func.typeOf d := by
        split
        · rfl
        · rename_i hnot
          exact hty (by simpa using hnot)
      have hcode : x.define d v (if ty.isMissing then x.func.typeOf d
          else ty).slots b = .ok u b' :=
        hcode
      rw [hsame] at hcode
      exact (define_fills hx hS hst (hplain d) rfl hv.slots hcode).follows hx
        hS.low hst
        (hfixed d List.mem_cons_self) hfr ⟨y, hy, rfl⟩
  | cast d v a c =>
      -- a cast is run as an assignment, and widths agree
      have hrun : exec ⟨[]⟩ refuse x.func fr (.assign d v a) w
          = .ok fr₁ w₁ := hrun
      obtain ⟨y, hy, rfl, rfl⟩ := exec_assign_ok_iff.mp hrun
      obtain ⟨hv, rfl, hsame⟩ := htyped
      have hslots : a.slots = (x.func.typeOf d).slots := by
        rw [Ty.slots_eq_ofNat, Ty.slots_eq_ofNat, hsame]
      have hcode : (if a.slots ≠ (x.func.typeOf d).slots
        then failWith (.cast a (x.func.typeOf d))
        else x.define d v (x.func.typeOf d).slots) b = .ok u b' := hcode
      rw [if_neg (not_not.mpr hslots)] at hcode
      exact (define_fills hx hS hst (hplain d) rfl (hv.slots.trans hslots)
        hcode).follows hx hS.low
        hst (hfixed d List.mem_cons_self) hfr ⟨y, hy, rfl⟩
  | unary op d v =>
      obtain ⟨y, zs, hy, hzs, rfl, rfl⟩ := exec_unary_ok_iff.mp hrun
      exact (unary_fills hx hS hst (hplain d) (Ty.slots_eq_one htyped.1)
        (Ty.slots_eq_one htyped.2)
        hcode).follows hx hS.low hst
          (hfixed d List.mem_cons_self) hfr ⟨y, hy, hzs⟩
  | binary op d l r =>
      obtain ⟨y, z, zs, hy, hz, hzs, rfl, rfl⟩ := exec_binary_ok_iff.mp hrun
      exact (binary_fills hx hS hst (hplain d) (Ty.slots_eq_one htyped.1)
        (Ty.slots_eq_one htyped.2.1) (Ty.slots_eq_one htyped.2.2) hcode).follows
        hx hS.low hst
        (hfixed d List.mem_cons_self) hfr ⟨y, z, hy, hz, hzs⟩
  | makeTuple d vs ts =>
      obtain ⟨xs, z, hxs, hz, rfl⟩ := exec_makeTuple_ok hrun
      obtain ⟨hty, hvs⟩ := htyped
      have hsuits := Operand.Suits.zip hvs
      refine (makeTuple_fills hx hS hst (hplain d) hty
        (hwidth d List.mem_cons_self) hvs.length_eq
        (fun p hp => ⟨(hsuits p hp).slots, (hsuits p hp).ne fun heq => ?_⟩)
        (fun _ _ v _ => hplain v) hcode).follows hx hS.low hst
        (hfixed d List.mem_cons_self) hfr
        ⟨xs, hxs, hz⟩
      -- no element has the type of the tuple it is in
      have hlt := Ty.sizeOf_lt_tuple (List.of_mem_zip hp).2
      rw [heq, hty] at hlt
      omega
  | extractTuple d v k ty =>
      obtain ⟨ts, hv, helem⟩ := htyped
      obtain ⟨y, off, z, hy, hoff, hz, rfl⟩ := exec_extractTuple_ok hv hrun
      have hget : ts.getD k.toNat .missing = x.func.typeOf d := by
        rw [List.getD_eq_getElem?_getD, helem]
        rfl
      have hcode : x.extractTuple d v k b = .ok u b' := hcode
      simp only [Scope.extractTuple, hv, hoff, hget] at hcode hz
      have hw := hcounted hcode
      have hin := Ty.inside_tuple (hv ▸ hw) hoff
      rw [hget, ← hv] at hin
      exact (extract_fills hx hS hst (hplain d) hin hw hcode).follows hx hS.low
        hst
        (hfixed d List.mem_cons_self) hfr ⟨y, z, hy, hz, rfl⟩
  | insertTuple d agg k v ts =>
      obtain ⟨y, e, off, z, hy, he, hoff, hz, rfl⟩ := exec_insertTuple_ok hrun
      obtain ⟨hty, hagg, elem, helem, hv⟩ := htyped
      have hget : ts.getD k.toNat .missing = elem := by
        rw [List.getD_eq_getElem?_getD, helem]
        rfl
      have hcode : x.insertTuple d agg k v ts b = .ok u b' := hcode
      have hwhole : Ty.slotsOfList ts = (x.func.typeOf d).slots := by
        rw [hty, Ty.slots]
      simp only [Scope.insertTuple, hoff, hget, hwhole] at hcode
      have hw := hwidth d List.mem_cons_self
      have hin := Ty.inside_tuple (hty ▸ hw) hoff
      rw [hget, ← hty] at hin
      exact (insert_fills hx hS hst (hplain d) (hagg.trans hty.symm) hin hw
        hv.slots (hv.ne hin.ne)
        hcode).follows hx hS.low hst (hfixed d List.mem_cons_self) hfr
        ⟨y, e, z, hy, he, hz, rfl⟩
  | makeStruct d fs r =>
      obtain ⟨z, w', hz, rfl⟩ := exec_makeStruct_ok hrun
      obtain ⟨hty, hr, hgives, hfs⟩ := htyped
      have hw := hwidth d List.mem_cons_self
      refine (makeStruct_fills hx hS hst (hplain d) hty hr hw hgives
        (fun p hp fld hfield => ?_)
        (fun _ _ v _ => hplain v) hcode).follows hx hS.low hst
        (hfixed d List.mem_cons_self) hfr
        ⟨z, w, w', hz, rfl⟩
      have hin := Ty.inside_struct hr (hty ▸ hw) hfield
      rw [← hty] at hin
      exact ⟨(hfs p hp fld hfield).slots, (hfs p hp fld hfield).ne hin.ne⟩
  | extractField d v name ty =>
      obtain ⟨r, hv, hr, fld, hfield, hd⟩ := htyped
      obtain ⟨y, fld', z, hy, hfield', hz, rfl⟩ := exec_extractField_ok hv hrun
      rw [hfield, Option.some.injEq] at hfield'
      subst hfield'
      have hrecord : (x.func.operandType v).asRecord = some r := by rw [hv]; rfl
      have hcode : x.extractField d v name b = .ok u b' := hcode
      simp only [Scope.extractField, hrecord, hr.slotOffset?, hfield,
        Option.map_some, ← hd]
        at hcode hz
      have hw := hcounted hcode
      have hin := Ty.inside_struct hr (hv ▸ hw) hfield
      rw [← hd, ← hv] at hin
      exact (extract_fills hx hS hst (hplain d) hin hw hcode).follows hx hS.low
        hst
        (hfixed d List.mem_cons_self) hfr ⟨y, z, hy, hz, rfl⟩
  | insertField d agg name v r =>
      obtain ⟨hty, hagg, hr, fld, hfield, hv⟩ := htyped
      obtain ⟨y, e, fld', z, hy, he, hfield', hz, rfl⟩ :=
        exec_insertField_ok hrun
      rw [hfield, Option.some.injEq] at hfield'
      subst hfield'
      have hcode : x.insertField d agg name v r b = .ok u b' := hcode
      simp only [Scope.insertField, hr.slotOffset?, hfield,
        Option.map_some, ← hty] at hcode
      have hw := hwidth d List.mem_cons_self
      have hin := Ty.inside_struct hr (hty ▸ hw) hfield
      rw [← hty] at hin
      exact (insert_fills hx hS hst (hplain d) (hagg.trans hty.symm) hin hw
        hv.slots (hv.ne hin.ne)
        hcode).follows hx hS.low hst (hfixed d List.mem_cons_self) hfr
        ⟨y, e, z, hy, he, hz, rfl⟩
  | debug msg vs =>
      obtain ⟨xs, hxs, rfl, rfl⟩ := exec_debug_ok_iff.mp hrun
      cases hcode
      exact ⟨σ, .refl _ _ _ _, hfr, fun _ _ => rfl⟩
  | nop =>
      cases hcode
      cases hrun
      exact ⟨σ, .refl _ _ _ _, hfr, fun _ _ => rfl⟩
  | call ds c vs sig =>
      have hrun : execCall ⟨[]⟩ refuse fr ds c vs w = .ok fr₁ w₁ := hrun
      obtain ⟨g, -, -, hg, -⟩ := execCall_ok_iff.mp hrun
      exact absurd (Module.mem_of_func? hg) List.not_mem_nil
  | _ => exact htyped.elim

end MirBackend.Asm
