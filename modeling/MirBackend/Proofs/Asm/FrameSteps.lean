/-
One instruction in both worlds.

An instruction that the interpreter executes and the code that was selected for
it keep interpreter and frame in agreement (`instr_keeps`). Where the
destination is a known address there is no code, and only what is known of
addresses changes. Elsewhere the code fills the slots of the destination, or
those that a store goes to.

What an instruction reads must be in its slots: a value that has lent them may
be read while the words at the address are its own. A load and a store are the
same in both worlds if they keep to the place that their address is derived from
(`InsideHome`): then the distance from its start is the same number on both
sides (`Agrees.reach`).
-/
import Mathlib
import MirBackend.Proofs.Asm.FrameMemory
import MirBackend.Proofs.Pass.FrameRuns

namespace MirBackend.Asm

open Interp
open Generator (derivation)

variable {code : List Insn} {base : Nat} {t : Link.Table} {x : Scope}
  {L : Layout} {n j : Nat} {b b' : Builder} {u : Unit} {live : ValueId → Prop}
  {place : ValueId → Nat} {fr fr₁ : Frame} {mem : Memory}
  {w w₁ : Interp.Machine} {σ : FrameSlots} {c : BlockId}
  {blk : Block} {i : Instr}

-- ================================================================ accesses

/-- What is asked of an instruction where it is executed: a load or a store
keeps to the allocation that its address is derived from and moves no array, a
load reads only what was written, and a step from an address of no allocation
stays below the order of the field. -/
structure Inside (f : Func) (fr : Frame) (mem : Memory) (i : Instr) : Prop where
  access : ∀ o t, f.access? i = some (o, t) → t.Flat ∧ ∃ r u v k start a,
    f.HasInstr (.frameAlloc r u) ∧ o = .value v ∧ Derived f r v k
    ∧ lookScalar fr (.value r) = some start
    ∧ lookScalar fr o = some a ∧ start ≤ a
    ∧ ∀ m, u.size = some m → a.toInt + t.width ≤ start.toInt + m.toInt
  written : ∀ d t o a, i = .load d t o → lookScalar fr o = some a →
    ∀ j < t.width, a.toInt.toNat + j ∈ mem.words
  pointer : ∀ d l r y z, i = .elementPtr d l r →
    (∀ v, l = .value v → ¬ FrameAddress f v) →
    lookScalar fr l = some y → lookScalar fr r = some z →
      y.toInt + z.toInt < 2147483647

/-- The same for addresses of all places in the frame: what is read of a value
that lent its slots was written when its address was taken. -/
structure InsideHome (f : Func) (fr : Frame) (mem : Memory)
    (i : Instr) : Prop where
  access : ∀ o t, f.access? i = some (o, t) → t.Flat ∧ ∃ i' r h v k start a,
    f.HasInstr i' ∧ homeOf? i' = some (r, h) ∧ o = .value v ∧ Derived f r v k
    ∧ lookScalar fr (.value r) = some start
    ∧ lookScalar fr o = some a ∧ start ≤ a
    ∧ ∀ m, roomOf? f i' = some m → a.toInt + t.width ≤ start.toInt + m.toInt
  written : ∀ d t v r u k a, i = .load d t (.value v) →
    f.HasInstr (.frameAlloc r u) →
    Derived f r v k → lookScalar fr (.value v) = some a →
      ∀ j < t.width, a.toInt.toNat + j ∈ mem.words
  pointer : ∀ d l r y z, i = .elementPtr d l r →
    (∀ v, l = .value v → ¬ FrameAddress f v) →
    lookScalar fr l = some y → lookScalar fr r = some z →
      y.toInt + z.toInt < 2147483647

/-- An instruction that stays inside what it derives stays inside the place
itself. -/
theorem Inside.home {f : Func} (h : Inside f fr mem i) :
    InsideHome f fr mem i := by
  refine ⟨fun o t ha => ?_,
    fun d t v _ _ _ a hi _ _ ha => h.written d t _ a hi ha, h.pointer⟩
  obtain ⟨hflat, r, u, v, k, start, a, hi, hrest⟩ := h.access o t ha
  exact ⟨hflat, _, r, r, v, k, start, a, hi, rfl, hrest⟩

/-- Where an access goes: as far into the memory of a place as into its
slots. -/
structure Reach (x : Scope) (L : Layout) (place : ValueId → Nat)
    (live : ValueId → Prop) (v : ValueId) (a : Int64) (width : Nat)
    (r h : ValueId) (s : Span) (j : Nat) : Prop where
  home : Home x.func r h
  live : live r
  span : L.spans[h]? = some s
  address : a = Int64.ofNat (place r + j)
  static : x.static[v]? = some (s.base + Int32.ofNat j)
  within : (j : Int) + width ≤ s.len.toInt
  bound : place r + j ≤ Memory.maxWords
  derived : ∃ k, Derived x.func r v k

/-- A value has a slot if the layout has a span for it. -/
theorem offset_eq_ok {off : Int32} {v : ValueId} :
    L.offset v = .ok off ↔ ∃ s, L.spans[v]? = some s ∧ off = s.base := by
  rw [Layout.offset]
  cases L.spans[v]? <;> simp [eq_comm]

/-- An address that is read or written reaches a word of a local place, within
the place's width. -/
theorem Agrees.reach (hA : Agrees x L live place fr mem σ) (hx : x.Framed L)
    {o : Operand} {ty : Ty} (hinside : InsideHome x.func fr mem i)
    (ha : x.func.access? i = some (o, ty))
    (hlive : ∀ r h v k, Home x.func r h → Derived x.func r v k →
      o = .value v → live v ∧ live r)
    {a : Int64} (hlook : lookScalar fr o = some a) :
    ty.Flat ∧ ∃ v r h s j, o = .value v
        ∧ Reach x L place live v a ty.width r h s j := by
  obtain ⟨hflat, i', r, h, v, k, start, a', hi', hhome, rfl, hk,
      hstart, ha', hle, hin⟩ :=
    hinside.access o ty ha
  rw [hlook, Option.some.injEq] at ha'
  subst ha'
  have hr : Home x.func r h := ⟨i', hi', hhome⟩
  obtain ⟨hlv, hlr⟩ := hlive r h v k hr hk rfl
  obtain ⟨off, hoff⟩ := Option.isSome_iff_exists.mp
    (Std.ExtTreeMap.mem_iff_isSome_getElem?.mp ((hx.known r).mpr (.home hr)))
  obtain ⟨s, hs, rfl⟩ := offset_eq_ok.mp (hx.explained.home hx.fixed hr hoff)
  have hhouse := hA.room r h s hr hlr hs
  have hlimit := hA.bounded.limit
  have hplace : (Int64.ofNat (place r)).toInt = place r :=
    Memory.toInt_ofNat (by have := hhouse.within; omega)
  have hlen := (hx.laid.span h s hs).1
  -- the start of the place is the address itself, no step from it
  have hroot := hA.address r h r 0 hr .refl hlr
  rw [hstart, Int64.add_zero, Option.some.injEq] at hroot
  subst hroot
  have haddr := hA.address r h v k hr hk hlv
  rw [hlook, Option.some.injEq] at haddr
  have hend := hin _ (hx.room i' r h s hi' hhome hs)
  rw [Int64.le_iff_toInt_le, hplace] at hle
  rw [hplace] at hend
  obtain ⟨j, hj⟩ : ∃ j : Nat, a.toInt = place r + j :=
    ⟨(a.toInt - place r).toNat, by omega⟩
  have hbound : place r + j ≤ Memory.maxWords := by
    have := hhouse.within
    omega
  have ha : a = Int64.ofNat (place r + j) := by
    rw [← Int64.toInt_inj, hj, Memory.toInt_ofNat (by omega), Nat.cast_add]
  have hkj : k = Int64.ofNat j := by
    rw [ha, Int64.ofNat_add] at haddr
    exact (Int64.add_right_inj _).mp haddr.symm
  have hstatic :=
    hk.staticAddress hx.explained hx.fixed (fun v hv => (hx.known v).mpr hv)
    (.home hr) hoff
  rw [hkj, Int64.toInt32_ofNat'] at hstatic
  exact ⟨hflat, v, r, h, s, j, rfl, hr, hlr, hs, ha,
    hstatic, by omega, hbound, k, hk⟩

variable {d h r v : ValueId} {s s' : Span} {a : Int64} {y : Value} {ty : Ty}

/-- Words that were written are in the slots of the place. -/
theorem Reach.shows (hto : Reach x L place live v a ty.width r h s j)
    (hA : Agrees x L live place fr mem σ) (hflat : ty.Flat)
    (hload : mem.load a ty = .ok y)
    (hwritten : ∀ k < ty.width, a.toInt.toNat + k ∈ mem.words) :
    y.slots.length = ty.width ∧ Shows σ (s.base + Int32.ofNat j) y.slots := by
  obtain rfl := hto.address
  have hslots := Memory.load_slots hflat hA.bounded hto.bound hload
  have hlen : y.slots.length = ty.width := by
    rw [hslots, Memory.read, List.length_map, List.length_range]
  have hbound := hto.bound
  have hwithin := hto.within
  refine ⟨hlen, fun k z hz => ?_⟩
  have hk : k < ty.width := hlen ▸ (List.getElem?_eq_some_iff.mp hz).1
  have hmem := hwritten k hk
  rw [Memory.toInt_ofNat (by omega), Int.toNat_natCast, Nat.add_assoc] at hmem
  obtain ⟨z', hz'⟩ :=
    Option.isSome_iff_exists.mp (Std.ExtTreeMap.mem_iff_isSome_getElem?.mp hmem)
  have hzz' : z' = z := by
    rw [hslots, Memory.read, List.getElem?_map,
      List.getElem?_range hk, Option.map_some,
      Option.some.injEq, Memory.get, Std.ExtTreeMap.getD_eq_getD_getElem?,
        Nat.add_assoc, hz'] at hz
    exact hz
  rw [Int32.add_assoc, ← Int32.ofNat_add]
  exact (hA.room r h s hto.home hto.live hto.span).shown (j + k) z
    (by push_cast; omega)
    (hzz' ▸ hz')

/-- What a load reads was written: in an allocation before the load, in the copy
of a value when its address was taken. -/
theorem Reach.written (hto : Reach x L place live v a ty.width r h s j)
    (hA : Agrees x L live place fr mem σ)
    (hinside : InsideHome x.func fr mem (.load d ty (.value v)))
    (hlook : lookScalar fr (.value v) = some a) :
    ∀ k < ty.width, a.toInt.toNat + k ∈ mem.words := by
  intro k hk
  obtain ⟨rfl, u, hu⟩ | hi := hto.home.cases
  · obtain ⟨k', hk'⟩ := hto.derived
    exact hinside.written d ty v h u k' a rfl hu hk' hlook k hk
  · have hbound := hto.bound
    have hwithin := hto.within
    rw [hto.address, Memory.toInt_ofNat (by omega),
      Int.toNat_natCast, Nat.add_assoc]
    exact hA.whole r h s hi hto.live hto.span (j + k) (by push_cast; omega)

/-- No place that fits a frame is as wide as `2 ^ 63` words. -/
theorem Reach.width_lt (hto : Reach x L place live v a n r h s j)
    (hx : x.Framed L) : n < 2 ^ 63 := by
  have := hto.within
  have := hx.laid.len_le hto.span
  omega

/-- The slots that an access goes to are those of no other value. -/
theorem Reach.apart (hto : Reach x L place live v a n r h s j) (hx : x.Framed L)
    (hs' : L.spans[d]? = some s') (hne : h ≠ d)
    (hn : (n : Int) ≤ s'.len.toInt) :
    Apart (s.base + Int32.ofNat j) s'.base n := by
  have hwithin := hto.within
  refine Or.inr fun k hk l hl => ?_
  rw [Int32.add_assoc, ← Int32.ofNat_add]
  exact hx.laid.slot_ne hne hto.span hs' (by push_cast; omega) (by omega)

/-- A value that is stored in the slots that it lent is there already. -/
theorem Reach.apart_self (hto : Reach x L place live v a n r h s j)
    (hn : (n : Int) = s.len.toInt) :
    Apart (s.base + Int32.ofNat j) s.base n := by
  have hwithin := hto.within
  obtain rfl : j = 0 := by omega
  exact Or.inl (add_ofNat_zero _)

/-- Standing apart is symmetric. -/
theorem Apart.symm {src dst : Int32} (h : Apart src dst n) : Apart dst src n :=
  h.imp Eq.symm fun h i hi j hj => (h j hj i hi).symm

-- ============================================================ instructions

/-- What defines a frame address makes it of a place, or it is a step from
another one. -/
theorem FrameAddress.instr_cases {f : Func} (hf : Fixed f)
    (hd : FrameAddress f d) (hi : f.HasInstr i) (hmem : d ∈ i.dests) :
    (∃ h, homeOf? i = some (d, h)) ∨ ∃ v off, derivation i = some (d, v, off)
      ∧ FrameAddress f v := by
  cases hd with
  | home hhome =>
      obtain ⟨i', hi', hhome⟩ := hhome
      obtain rfl := hf.instr_unique (.home ⟨i', hi', hhome⟩) hi hi' hmem
        (by rw [dests_of_homeOf? hhome]; simp)
      exact Or.inl ⟨_, hhome⟩
  | step hi' hderives hbase =>
      obtain rfl := hf.instr_unique (.step hi' hderives hbase) hi hi' hmem
        (by rw [(dests_of_derivation hderives).1]; simp)
      exact Or.inr ⟨_, _, hderives, hbase⟩

/-- An immediate below the order of the field is read as it stands. -/
theorem lookScalar_imm {o : Operand} {k : Int32} {z : Int64}
    (ho : o.imm? = some k) (hk : 0 ≤ k ∧ k < 2147483647)
    (hz : lookScalar fr o = some z) : z = k.toInt64 := by
  cases o with
  | int k' =>
      cases ho
      cases hz
      refine Felt.toInt64_ofInt64_of_lt ?_ ?_
      · rw [Int32.toInt_toInt64]
        exact Int32.le_iff_toInt_le.mp hk.1
      · rw [Int32.toInt_toInt64]
        exact Int32.lt_iff_toInt_lt.mp hk.2
  | bool c =>
      cases ho
      cases hz
      cases c <;> rfl
  | _ => cases ho

/-- A step from an address gives the address and the distance. -/
theorem exec_derivation_ok {f : Func} {off : Int32}
    (hderives : derivation i = some (d, v, off))
    (h : exec ⟨[]⟩ refuse f fr i w = .ok fr₁ w₁) :
    w₁ = w ∧ ∃ y, fr₁ = fr.insert d y ∧ ∀ c, 0 ≤ off ∧ off < 2147483647 →
      lookScalar fr (.value v) = some c → y.slots = [c + off.toInt64] := by
  have hcopy {y : Value} (hy : look fr (.value v) = some y) (c : Int64)
      (hc : lookScalar fr (.value v) = some c) :
          y.slots = [c + (0 : Int32).toInt64] := by
    obtain ⟨z, hz, hslots⟩ := lookScalar_eq_some.mp hc
    rw [hy, Option.some.injEq] at hz
    rw [hz, hslots]
    exact congrArg (fun z => [z]) (Int64.add_zero c).symm
  cases i with
  | assign d' o ty =>
      cases o <;> cases hderives
      obtain ⟨y, hy, rfl, rfl⟩ := exec_assign_ok_iff.mp h
      exact ⟨rfl, y, rfl, fun c _ => hcopy hy c⟩
  | cast d' o t t' =>
      cases o <;> cases hderives
      have h : exec ⟨[]⟩ refuse f fr (.assign d (.value v) t) w = .ok fr₁ w₁ :=
        h
      obtain ⟨y, hy, rfl, rfl⟩ := exec_assign_ok_iff.mp h
      exact ⟨rfl, y, rfl, fun c _ => hcopy hy c⟩
  | elementPtr d' l o =>
      obtain ⟨y, z, hy, hz, rfl, rfl⟩ := exec_elementPtr_ok_iff.mp h
      cases l with
      | value v' =>
          obtain ⟨k, hk, hderives⟩ := Option.map_eq_some_iff.mp hderives
          cases hderives
          refine ⟨rfl, _, rfl, fun c hoff hc => ?_⟩
          rw [hy, Option.some.injEq] at hc
          subst hc
          obtain rfl := lookScalar_imm hk hoff hz
          rfl
      | _ => cases hderives
  | _ => cases hderives

/-- Code leads to slots that agree with a frame and a memory at a place of the
function. -/
def Keeps (code : List Insn) (base : Nat) (x : Scope) (L : Layout)
    (b b' : Builder) (c : BlockId) (j : Nat) (σ : FrameSlots) (fr : Frame)
    (mem : Memory) : Prop :=
  ∃ live place σ', Leads code base b.code.length σ b'.code.length σ'
    ∧ Agrees x L live place fr mem σ' ∧ LiveAt x.func live c j

section

variable (hx : x.Framed L) (hb : x.func.block? c = some blk)
  (hreach : x.func.Reachable c) (hj : blk.instrs[j]? = some i)
  (hlive : LiveAt x.func live c j)
include hx hb hreach hj hlive

/-- An instruction that makes an address of a place: memory is handed out, and
there is no code. -/
theorem home_keeps (hhome : homeOf? i = some (d, h))
    (hA : Agrees x L live place fr w.memory σ)
    (hreads : x.Mirrors L (only fr i.uses) σ)
    (hrun : exec ⟨[]⟩ refuse x.func fr i w = .ok fr₁ w₁) :
    Keeps code base x L b b c (j + 1) σ fr₁ w₁.memory := by
  have hi : x.func.HasInstr i := ⟨c, blk, hb, List.mem_of_getElem? hj⟩
  have hd : Home x.func d h := ⟨i, hi, hhome⟩
  obtain ⟨off, hoff⟩ := Option.isSome_iff_exists.mp
    (Std.ExtTreeMap.mem_iff_isSome_getElem?.mp ((hx.known d).mpr (.home hd)))
  obtain ⟨s, hs, -⟩ := offset_eq_ok.mp (hx.explained.home hx.fixed hd hoff)
  have hroom := hx.room i d h s hi hhome hs
  have hlen := hx.laid.span h s hs
  have hlive' := hlive.settle hb hj hx.fixed hx.lends hreach hhome
  cases i with
  | frameAlloc d' t =>
      cases hhome
      obtain ⟨m, a, memory, hm, ha, rfl, rfl⟩ := exec_frameAlloc_ok_iff.mp hrun
      have hnone : (([] : Slots).length : Int) ≤ s.len.toInt := hlen.1
      refine ⟨_, _, σ, .refl _ _ _ _,
        hA.settle hx hd hs ha ?_ hnone (.nil _ _) ?_, hlive'⟩
      · exact Option.some.inj (hm.symm.trans hroom)
      · intro hi'
        cases hx.fixed.instr_unique (.home hd) hi hi' List.mem_cons_self
          List.mem_cons_self
  | addressOf d' v =>
      cases hhome
      obtain ⟨y, a, memory, hy, ha, rfl, rfl⟩ := exec_addressOf_ok_iff.mp hrun
      have hv : h ∉ x.static :=
        fun hstatic => hx.lends.value d h hi ((hx.known h).mp hstatic)
      have hmem : h ∈ (Instr.addressOf d h).uses := List.mem_cons_self
      obtain ⟨s', hs', hcount, hshows⟩ :=
        hreads h y hv (by rw [getElem?_only, if_pos hmem]; exact hy)
      rw [hs, Option.some.injEq] at hs'
      subst hs'
      obtain ⟨⟨-, hlimit⟩, rfl, -⟩ := Memory.alloc_eq_ok.mp ha
      have hstart : (Int64.ofNat w.memory.size).toInt.toNat
          = w.memory.size := by
        rw [Memory.toInt_ofNat (by omega), Int.toNat_natCast]
      refine ⟨Occupied x.func live d h, Function.update place d w.memory.size,
        σ, .refl _ _ _ _, ?_, hlive'⟩
      rw [hstart]
      refine hA.settle hx hd hs ha ?_ hcount.le hshows fun _ => hcount
      rw [← Int64.toInt_inj, ← hcount]
      exact Int64.toInt_ofNat_of_lt (by have := hx.laid.len_le hs; omega)
  | _ => cases hhome

/-- An instruction that defines a known address: there is no code for it. -/
theorem static_keeps (hd : d ∈ i.dests) (hstatic : d ∈ x.static)
    (hA : Agrees x L live place fr w.memory σ)
    (hreads : x.Mirrors L (only fr i.uses) σ)
    (hrun : exec ⟨[]⟩ refuse x.func fr i w = .ok fr₁ w₁) :
    Keeps code base x L b b c (j + 1) σ fr₁ w₁.memory := by
  have hi : x.func.HasInstr i := ⟨c, blk, hb, List.mem_of_getElem? hj⟩
  obtain ⟨h, hhome⟩ | ⟨v, off, hderives, hv⟩ :=
    ((hx.known d).mp hstatic).instr_cases hx.fixed hi hd
  · exact home_keeps hx hb hreach hj hlive hhome hA hreads hrun
  · obtain ⟨rfl, y, rfl, hy⟩ := exec_derivation_ok hderives hrun
    have hlv := hlive.available v hv
      (hx.fixed.available c blk j i hb hreach hj v
      (dests_of_derivation hderives).2 hv)
    exact ⟨_, place, σ, .refl _ _ _ _, hA.derive hx hi hderives hv hlv hy,
      hlive.derive hb hj hx.fixed hx.lends hderives hv⟩

/-- A value that is no known address gets its slots, and has them back if it had
lent them. -/
theorem define_keeps (hn : L.frameSize.toInt ≤ n) (hd : d ∉ x.static)
    (hdests : i.dests = [d]) (hs : L.spans[d]? = some s)
    (hlen : (y.slots.length : Int) = s.len.toInt)
    (hA : Agrees x L live place fr mem σ) {σ' : FrameSlots} {e : Int}
    (hleads : Leads code base b.code.length σ b'.code.length σ')
    (hputs : Puts n e s.base y.slots σ σ') :
    Keeps code base x L b b' c (j + 1) σ (fr.insert d y) mem :=
  ⟨_, place, σ', hleads, hA.define hx hn hd hs hlen hputs,
    hlive.define hb hj hx.lends hreach hdests fun hfa =>
      hd ((hx.known d).mpr hfa)⟩

/-- An instruction that fills the slots of its destination. -/
theorem Fills.keeps {gives : Frame → Slots → Prop}
    (h : Fills code base x L n b b' d gives) (hn : L.frameSize.toInt ≤ n)
    (hd : d ∉ x.static) (hdests : i.dests = [d])
    (hA : Agrees x L live place fr mem σ) {fr' : Frame}
    (hreads : x.Mirrors L fr' σ) (hy : gives fr' y.slots) :
    Keeps code base x L b b' c (j + 1) σ (fr.insert d y) mem := by
  obtain ⟨s, hs, hrun⟩ := h.run
  obtain ⟨hlen, σ', hleads, hputs⟩ := hrun σ fr' _ hreads hy
  exact define_keeps hx hb hreach hj hlive hn hd hdests hs hlen hA hleads hputs

/-- A load fills the slots of its destination with what the slots of the place
hold. -/
theorem Reach.load_keeps {k : Nat}
    (hto : Reach x L place live v a ty.width r h s k) (hflat : ty.Flat)
    (hS : Stage L 0 n b) (hst : Standing code base t b') (hd : d ∉ x.static)
    (hfits : (Instr.load d ty (.value v)).Fits x.func)
    (heq : i = .load d ty (.value v))
    (hcode : x.load d ty (.value v) b = .ok u b')
    (hload : mem.load a ty = .ok y)
    (hwritten : ∀ l < ty.width, a.toInt.toNat + l ∈ mem.words)
    (hA : Agrees x L live place fr mem σ) :
    Keeps code base x L b b' c (j + 1) σ (fr.insert d y) mem := by
  obtain ⟨hcount, hshows⟩ := hto.shows hA hflat hload hwritten
  obtain ⟨-, s', hs', hlen, hputs⟩ := load_puts hx.laid hS hst hd hfits hcode
  have hslots : (y.slots.length : Int) = ty.slots.toInt := by
    rw [hcount, Ty.toInt_slots ty (hto.width_lt hx)]
  -- a value is not loaded from its own slots: then the address would not be
  -- available behind
  have hmem : d ∈ i.dests ∧ v ∈ i.uses := by
    subst heq
    exact ⟨List.mem_cons_self, List.mem_cons_self⟩
  have hne : h ≠ d := by
    rintro rfl
    obtain ⟨k', hk'⟩ := hto.derived
    have hr : FrameAddress x.func r := .home hto.home
    have hav := hx.fixed.available_root hr hk' hreach
      (hx.fixed.available c blk j i hb hreach hj v hmem.2 (hk'.frameAddress hr))
    exact hx.lends.ended r h c j (hto.home.addressOf fun hfa =>
      hd ((hx.known h).mpr hfa)) hreach
      ⟨blk, i, hb, hj, hmem.1⟩ (hav.mono (Nat.le_succ j))
  have hapart : Apart (s.base + Int32.ofNat k) s'.base y.slots.length :=
    hcount ▸ hto.apart hx hs' hne (by rw [hlen, ← hslots, hcount])
  obtain ⟨σ', hleads, hputs⟩ :=
    hputs σ y.slots v _ rfl hto.static hshows hslots hapart
  exact define_keeps hx hb hreach hj hlive hS.low hd (heq ▸ rfl) hs'
    (hlen ▸ hslots) hA hleads hputs

omit hreach in
/-- A store fills slots of the place with the value. -/
theorem Reach.store_keeps {k : Nat} {o : Operand} {mem' : Memory}
    (hto : Reach x L place live v a
      (if ty.isMissing then x.func.operandType o else ty).width r h s k)
    (hflat : (if ty.isMissing then x.func.operandType o else ty).Flat)
    (hS : Stage L 0 n b) (hst : Standing code base t b')
    (hfits : (Instr.store (.value v) o ty).Fits x.func) (hdests : i.dests = [])
    (hcode : x.store (.value v) o ty b = .ok u b') {fr' : Frame}
    (hreads : x.Mirrors L fr' σ) (hy : look fr' o = some y)
    (hstore : Memory.store a (if ty.isMissing then x.func.operandType o else ty)
      y mem = .ok () mem')
    (hA : Agrees x L live place fr mem σ) :
    Keeps code base x L b b' c (j + 1) σ fr mem' := by
  obtain ⟨-, hnot, _, off, hv, hoff, hputs⟩ :=
    store_puts hx.laid hS hst (slots_of_store hfits) hcode
  cases hv
  rw [hto.static, Option.some.injEq] at hoff
  subst hoff
  have hslots : y.slots.length
      = (if ty.isMissing then x.func.operandType o else ty).width := by
    have := hreads.length_eq hx.laid hy hnot
    rw [slots_of_store hfits, Ty.toInt_slots _ (hto.width_lt hx)] at this
    omega
  obtain rfl := hto.address
  obtain rfl := Memory.store_eq_write hflat hA.bounded hto.bound hslots hstore
  rw [← hslots] at hto
  have hapart (w : ValueId) (s' : Span) (hw : o = .value w)
      (hs' : L.spans[w]? = some s') :
      Apart s'.base (s.base + Int32.ofNat k) y.slots.length := by
    subst hw
    obtain ⟨s'', hs'', hlen, -⟩ := hreads w y (hnot w rfl) hy
    rw [hs', Option.some.injEq] at hs''
    subst hs''
    by_cases hwh : h = w
    · subst hwh
      have hspan := hto.span
      rw [hs', Option.some.injEq] at hspan
      exact hspan ▸ (hto.apart_self (hspan ▸ hlen)).symm
    · exact (hto.apart hx hs' hwh hlen.le).symm
  obtain ⟨σ', hleads, hputs⟩ := hputs σ _ y hreads hy hapart
  exact ⟨live, place, σ', hleads,
    hA.store hx hS.low hto.home hto.live hto.span hto.within hputs,
    hlive.pass hb hj hdests⟩

end

/-- What a scalar operand gives depends on what the operand gives. -/
theorem lookScalar_congr {fr' : Frame} {o : Operand}
    (h : look fr o = look fr' o) : lookScalar fr o = lookScalar fr' o := by
  rw [lookScalar, lookScalar, h]

/-- An instruction that is executed and the code for it keep interpreter and
frame in agreement. -/
theorem instr_keeps (hx : x.Framed L) (hfits : i.FitsFrame x.func)
    (hb : x.func.block? c = some blk) (hreach : x.func.Reachable c)
    (hj : blk.instrs[j]? = some i) (hS : Stage L 0 n b)
    (hst : Standing code base t b') (h : x.instr i b = .ok u b')
    (hinside : InsideHome x.func fr w.memory i) (hlive : LiveAt x.func live c j)
    (hcurrent : ∀ r v, v ∈ i.uses → x.func.HasInstr (.addressOf r v) →
      Lent x.func r v c j →
      Current fr w.memory r v)
    (hrun : exec ⟨[]⟩ refuse x.func fr i w = .ok fr₁ w₁)
    (hA : Agrees x L live place fr w.memory σ) :
    Keeps code base x L b b' c (j + 1) σ fr₁ w₁.memory := by
  -- of the frame only what the instruction reads has to be mirrored: a home may
  -- be stale as long as nobody looks at it
  have hreads : x.Mirrors L (only fr i.uses) σ :=
    hA.mirrors_only hx fun r v hv hi hlr =>
    hcurrent r v hv hi (hlive.lent r v hi hlr)
  have hlook (o : Operand) (ho : o ∈ i.operands) :
      look (only fr i.uses) o = look fr o :=
    (agree_only fr i.operands o ho).symm
  have hscalar (o : Operand) (ho : o ∈ i.operands) :
      lookScalar (only fr i.uses) o = lookScalar fr o :=
        lookScalar_congr (hlook o ho)
  rw [Scope.instr] at h
  split at h
  -- an address known statically has no code
  · rename_i hany
    cases h
    obtain ⟨d, hd, hstatic⟩ := List.any_eq_true.mp hany
    exact static_keeps hx hb hreach hj hlive hd
      (Std.ExtTreeMap.contains_iff_mem.mp hstatic) hA
      hreads hrun
  rename_i hdests
  have hnot {d : ValueId} (hi : i.dests = [d]) : d ∉ x.static := by
    rw [hi, List.any_cons, List.any_nil, Bool.or_false, Scope.isStatic,
      Std.ExtTreeMap.contains_iff_mem] at hdests
    exact hdests
  -- an address that is accessed was set on every way here, and so was the place
  -- it is derived from
  have hreached (o : Operand) (ty : Ty) (ha :
      x.func.access? i = some (o, ty)) (r h v : ValueId)
      (k : Int64) (hr : Home x.func r h) (hk : Derived x.func r v k)
      (ho : o = .value v) :
      live v ∧ live r := by
    have huse : v ∈ i.uses := by
      subst ho
      cases i <;> cases ha <;> exact List.mem_cons_self
    have hfa : FrameAddress x.func r := .home hr
    have hv :=
      hx.fixed.available c blk j i hb hreach hj v huse (hk.frameAddress hfa)
    exact ⟨hlive.available v (hk.frameAddress hfa) hv,
      hlive.available r hfa (hx.fixed.available_root hfa hk hreach hv)⟩
  obtain hfits | _ := hfits
  swap
  · exact absurd h failWith_ne_ok
  -- what is computed fills its destination; loads and stores go to the place
  -- that is reached
  cases i with
  | assign d v ty =>
      obtain ⟨y, hy, rfl, rfl⟩ := exec_assign_ok_iff.mp hrun
      have hfills :=
        define_fills hx.laid hS hst (hnot rfl) (slots_of_assign hfits)
        (hfits.1.trans (slots_of_assign hfits).symm) h
      exact hfills.keeps hx hb hreach hj hlive hS.low (hnot rfl) rfl hA hreads
        ⟨y, (hlook v (by simp [Instr.operands])).trans hy, rfl⟩
  | cast d v ty ty' =>
      have hrun : exec ⟨[]⟩ refuse x.func fr (.assign d v ty) w
          = .ok fr₁ w₁ := hrun
      obtain ⟨y, hy, rfl, rfl⟩ := exec_assign_ok_iff.mp hrun
      have h : (if ty.slots ≠ ty'.slots then failWith (.cast ty ty')
        else x.define d v ty'.slots) b = .ok u b' := h
      rw [if_neg (not_not.mpr hfits.2.1)] at h
      have hfills := define_fills hx.laid hS hst (hnot rfl) hfits.2.2
        (hfits.1.trans hfits.2.1) h
      exact hfills.keeps hx hb hreach hj hlive hS.low (hnot rfl) rfl hA hreads
        ⟨y, (hlook v (by simp [Instr.operands])).trans hy, rfl⟩
  | unary op d v =>
      obtain ⟨y, zs, hy, hzs, rfl, rfl⟩ := exec_unary_ok_iff.mp hrun
      have hfills := unary_fills hx.laid hS hst (hnot rfl) hfits.1 hfits.2 h
      exact hfills.keeps hx hb hreach hj hlive hS.low (hnot rfl) rfl hA hreads
        ⟨y, (hscalar v (by simp [Instr.operands])).trans hy, hzs⟩
  | binary op d l r =>
      obtain ⟨y, z, zs, hy, hz, hzs, rfl, rfl⟩ := exec_binary_ok_iff.mp hrun
      have hfills :=
        binary_fills hx.laid hS hst (hnot rfl) hfits.1 hfits.2.1 hfits.2.2 h
      exact hfills.keeps hx hb hreach hj hlive hS.low (hnot rfl) rfl hA hreads
        ⟨y, z, (hlook l (by simp [Instr.operands])).trans hy,
          (hlook r (by simp [Instr.operands])).trans hz, hzs⟩
  -- the element stays inside the place, where address and slot go together
  | elementPtr d l r =>
      obtain ⟨y, z, hy, hz, rfl, rfl⟩ := exec_elementPtr_ok_iff.mp hrun
      have hfills :=
        elementPtr_fills hx.laid hS hst (hnot rfl) hfits.1 hfits.2.1 hfits.2.2 h
      refine hfills.keeps hx hb hreach hj hlive hS.low (hnot rfl) rfl hA hreads
        ⟨y, z, (hscalar l (by simp [Instr.operands])).trans hy,
          (hscalar r (by simp [Instr.operands])).trans hz, fun hl => ?_, rfl⟩
      exact hinside.pointer d l r y z rfl (fun v hv haddr =>
        hl v hv ((hx.known v).mpr haddr)) hy hz
  | load d ty o =>
      obtain ⟨a, y, ha, hy, rfl, rfl⟩ := exec_load_ok_iff.mp hrun
      obtain ⟨hflat, v, r, h', s, k, rfl, hto⟩ :=
        hA.reach hx hinside rfl (hreached _ _ rfl) ha
      have h : x.load d ty (.value v) b = .ok u b' := h
      exact hto.load_keeps hx hb hreach hj hlive hflat hS hst
        (hnot rfl) hfits rfl h hy
        (hto.written hA hinside ha) hA
  | store o v ty =>
      obtain ⟨a, y, memory, ha, hy, hstore, rfl, rfl⟩ :=
        exec_store_ok_iff.mp hrun
      obtain ⟨hflat, v', r, h', s, k, rfl, hto⟩ :=
        hA.reach hx hinside rfl (hreached _ _ rfl) ha
      have h : x.store (.value v') v ty b = .ok u b' := h
      exact hto.store_keeps hx hb hj hlive hflat hS hst hfits rfl h hreads
        ((hlook v (by simp [Instr.operands])).trans hy) hstore hA
  | frameAlloc d ty => exact absurd h failWith_ne_ok
  | _ => exact hfits.elim

end MirBackend.Asm
