/-
A call from a typed function, seen from both frames.

The callee is entered with the arguments in its parameters. What it promises to
its caller is told in its own frame (`Finished`): at its return the results are
in their slots, and neither the link has changed nor anything below the results.
In the frame of the caller that is all below the results, and the return takes
the machine back there (`CallCode.comes_back`). Then the results get into their
values (`CallCode.finishes`).

Addresses come round: above the last is the first. So frames are counted from
the first frame of the run (`Machine.Above`), and a frame is only promised
anything if neither it nor that of a callee gets round to the first one. A
machine that calls on beyond that puts a frame just below the first
(`Machine.Overruns`), and it takes a long run to get there.
-/
import Mathlib
import MirBackend.Proofs.Asm.FrameCalls
import MirBackend.Proofs.Asm.RegisterCode

namespace MirBackend.Asm

open Interp

variable {m : Module} {code : List Insn} {base base' n q k N : Nat}
  {t : Link.Table} {x y : Scope} {L Lg : Layout} {b b' B : Builder} {g : Func}
  {fr : Frame} {ds : List ValueId} {args : List Operand}
  {first entry start F : Int32} {vs xs rs : List Value} {s s₁ s' : Machine}
  {σ σ' : FrameSlots}

-- =================================================================== frames

/-- A frame begins at most so many addresses above that of its caller, and
neither its slots nor what is passed to it are further from where it begins. -/
def reach : Nat := 2 ^ 24 + 2

/-- The frame begins so many addresses above the first one, and not so high that
the addresses come round in it or in the frame of a callee. -/
structure Machine.Above (first : Int32) (k : Nat) (s : Machine) : Prop where
  fp : s.fp = first + Int32.ofNat k
  room : k + 2 * reach ≤ 2 ^ 32

/-- The machine comes to a call that puts its frame just below the first one:
the addresses have come round. -/
def Machine.Overruns (code : List Insn) (first : Int32) (s : Machine) : Prop :=
  ∃ s' y k, Machine.Goes code s s' ∧ Machine.fetch? code s'.pc = some y
    ∧ y.opcode = .callAbsImm
    ∧ 0 < k ∧ k < 2 * reach ∧ s'.fp + (y.off0 + 2) = first - Int32.ofNat k

/-- A machine that gets to one whose frames come round has frames that come
round. -/
theorem Machine.Overruns.of_goes (hgo : Machine.Goes code s s₁)
    (h : s₁.Overruns code first) : s.Overruns code first := by
  obtain ⟨s', y, k, hgo', hcall⟩ := h
  exact ⟨s', y, k, Relation.ReflTransGen.trans hgo hgo', hcall⟩

/-- The machine is in the same frame, and nothing below it has changed, down to
what was passed to the first frame, which begins `k` addresses below. -/
structure Machine.Stays (k : Nat) (s s' : Machine) : Prop where
  fp : s'.fp = s.fp
  kept : ∀ z : Int, -(k + reach) ≤ z → z < 0 →
    s'.slot? (Int32.ofInt z) = s.slot? (Int32.ofInt z)

/-- Frames that stand above some address still do after a step within the
function. -/
theorem Machine.Above.stays (h : s.Above first k) (hs : s.Stays k s') :
    s'.Above first k :=
  ⟨hs.fp.trans h.fp, h.room⟩

/-- Where the frame of a callee begins has not come round, or it is just below
the first frame. -/
theorem Machine.Above.callee (h : s.Above first k) (hF : 0 ≤ F.toInt)
    (hhigh : F.toInt ≤ 16777216) :
    ((∃ l, 0 < l ∧ l < 2 * reach ∧ s.fp + (F + 2) = first - Int32.ofNat l)
        ∧ 2 ^ 32 < k + 3 * reach)
      ∨ ∀ s' : Machine, s'.fp = s.fp + (F + 2) → s'.Above first
      (k + (F.toInt + 2).toNat) := by
  have hreach : reach = 16777218 := rfl
  have hroom := h.room
  have hlink : F + 2 = Int32.ofNat (F.toInt + 2).toNat := by
    rw [← Int32.ofInt_eq_ofNat, Int.toNat_of_nonneg (by omega), Int32.ofInt_add,
      Int32.ofInt_toInt]
    rfl
  have hplace : s.fp + (F + 2)
      = first + Int32.ofNat (k + (F.toInt + 2).toNat) := by
    rw [h.fp, hlink, Int32.ofNat_add, Int32.add_assoc]
  by_cases hfits : k + (F.toInt + 2).toNat + 2 * reach ≤ 2 ^ 32
  · exact Or.inr fun s' hfp => ⟨hfp.trans hplace, hfits⟩
  · refine Or.inl ⟨⟨2 ^ 32 - (k + (F.toInt + 2).toNat), by omega, by omega,
      ?_⟩, by omega⟩
    have hround : Int32.ofNat (2 ^ 32 - (k + (F.toInt + 2).toNat))
        + Int32.ofNat (k + (F.toInt + 2).toNat) = 0 := by
      rw [← Int32.ofNat_add, Nat.sub_add_cancel (by omega)]
      rfl
    rw [hplace]
    grind

/-- A slot that is counted from a frame without wrapping around has the offset
that is counted, or it is beyond all slots of the frame. -/
theorem toInt_slot {z : Int} (hlow : -(2 ^ 32 - reach) ≤ z)
    (hhigh : z < 2 ^ 31) :
    (Int32.ofInt z).toInt = z ∨ reach ≤ (Int32.ofInt z).toInt := by
  have hreach : reach = 16777218 := rfl
  have hsize : Int32.size = 4294967296 := rfl
  rw [Int32.toInt_ofInt, Int.bmod_def, hsize]
  omega

-- ==================================================================== returns

/-- A function that started in one state is at its return in another: the
results are in their slots, and neither the link has changed nor what is below
the results, down to what was passed to the first frame, which begins `k`
addresses below. -/
structure Finished (x : Scope) (B : Builder) (base : Nat)
    (vs : List Value) (k : Nat) (s s' : Machine) : Prop where
  ret : ∃ e, B.code[e]? = some { opcode := .ret }
    ∧ s'.pc = Int32.ofNat (base + e)
  fp : s'.fp = s.fp
  widths : List.Forall₂ (fun ty (v : Value) => v.slots.length
    = ty.width) x.func.returns vs
  results : Shows s'.slot? (Int32.ofInt (Layout.resultsAt x.func))
    (vs.flatMap (·.slots))
  kept : ∀ z : Int, -(k + reach) ≤ z → z < 0 →
    z < Layout.resultsAt x.func ∨ -2 ≤ z →
    s'.slot? (Int32.ofInt z) = s.slot? (Int32.ofInt z)

/-- The results fill the room for them. -/
theorem Finished.length_eq (h : Finished x B base vs k s s') :
    (vs.flatMap (·.slots)).length = Ty.widthOfList x.func.returns := by
  have hwidths := h.widths
  clear h
  generalize x.func.returns = ts at hwidths
  induction hwidths with
  | nil => rfl
  | cons hwidth _ ih => rw [List.flatMap_cons, List.length_append, hwidth,
    ih, Ty.widthOfList]

/-- A function that takes `N` steps comes to its return, if the addresses do not
come round before; for that the steps, a frame in each at most, have to reach
all around. -/
def Finishes (code : List Insn) (first : Int32) (x : Scope)
    (B : Builder) (base : Nat) (vs : List Value) (k N : Nat)
    (s : Machine) : Prop :=
  s.Overruns code first ∧ 2 ^ 32 < k + (N + 2) * reach
    ∨ ∃ s', Machine.Goes code s s' ∧ Finished x B base vs k s s'

/-- What is done in the frame does not matter to the caller. -/
theorem Finishes.of_goes (hgo : Machine.Goes code s s₁)
    (hs : Machine.Stays k s s₁) {N N' : Nat} (hN : N ≤ N')
    (h : Finishes code first x B base vs k N s₁) :
    Finishes code first x B base vs k N' s := by
  rcases h with ⟨hover, hlong⟩ | ⟨s', hgo', h⟩
  · have hmore : (N + 2) * reach ≤ (N' + 2) * reach :=
      Nat.mul_le_mul_right _ (by omega)
    exact Or.inl ⟨hover.of_goes hgo, by omega⟩
  · exact Or.inr ⟨s', Relation.ReflTransGen.trans hgo hgo', h.ret,
      h.fp.trans hs.fp, h.widths,
      h.results, fun z hlow hneg hz =>
        (h.kept z hlow hneg hz).trans (hs.kept z hlow hneg)⟩

/-- The return takes the machine where the link says. -/
theorem Finished.back (h : Finished x B base vs k s s')
    (hst : Standing code base t B) {fp pc : Int32}
    (hlink : s.slot? (-2) = some (.ofWord fp))
    (hback : s.slot? (-1) = some (.ofWord pc)) :
    ∃ s'', Machine.step code s' = some s'' ∧ s''.pc = pc ∧ s''.fp = fp
      ∧ ∀ a, s''.read? a = s'.read? a := by
  have hreach : reach = 16777218 := rfl
  obtain ⟨e, he, hpc⟩ := h.ret
  have hone := h.kept (-1) (by omega) (by decide) (Or.inr (by decide))
  have htwo := h.kept (-2) (by omega) (by decide) (Or.inr (by decide))
  rw [show Int32.ofInt (-1) = -1 from rfl, hback] at hone
  rw [show Int32.ofInt (-2) = -2 from rfl, hlink] at htwo
  refine ⟨{ s' with pc, fp }, ?_, rfl, rfl, fun _ => rfl⟩
  rw [hst.step_eq he rfl hpc, if_pos (by rfl)]
  simp only [Machine.execute, hone, htwo]
  rfl

-- ====================================================================== calls

/-- Values got results as the interpreter hands them out. -/
theorem Gets.mirrors (h : Gets L n ds (rs.map (·.slots)) σ σ') (hx : x.Laid L)
    (hn : L.frameSize.toInt ≤ n)
    (hwidths : List.Forall₂ (fun d (r : Value) => r.slots.length
      = (x.func.typeOf d).width) ds rs)
    (hsmall : ∀ d ∈ ds, (x.func.typeOf d).width < 2 ^ 63)
    (hfr : ∀ v z, v ∉ x.static → v ∉ ds → fr[v]? = some z →
      ∃ s, L.spans[v]? = some s
      ∧ (z.slots.length : Int) = s.len.toInt ∧ Shows σ s.base z.slots) :
    x.Mirrors L (insertAll fr (ds.zip rs)) σ' := by
  have hcount := hwidths.length_eq
  intro v z hv hz
  by_cases hd : v ∈ ds
  · obtain ⟨i, hi, hlast⟩ := Layout.exists_last hd
    have hlt : i < rs.length := hcount ▸ (List.getElem?_eq_some_iff.mp hi).1
    have hr := List.getElem?_eq_getElem hlt
    have hboth : (ds.zip rs)[i]? = some (v, rs[i]) :=
      List.getElem?_zip_eq_some.mpr ⟨hi, hr⟩
    rw [getElem?_insertAll_of_last hboth
      (by rwa [List.map_drop, List.map_fst_zip hcount.le]),
      Option.some.injEq] at hz
    subst hz
    obtain ⟨s, hs, hshows⟩ :=
      h.here i v _ hi hlast (by rw [List.getElem?_map, hr]; rfl)
    have hwidth : rs[i].slots.length = (x.func.typeOf v).width :=
      List.forall₂_zip hwidths (List.mem_of_getElem? hboth)
    exact ⟨s,
      hs, by rw [hx.len v s hs hv, Ty.toInt_slots _ (hsmall v hd), hwidth],
      hshows⟩
  · rw [getElem?_insertAll_of_not_mem
      (by rwa [List.map_fst_zip hcount.le])] at hz
    obtain ⟨s, hs, hlen, hshows⟩ := hfr v z hv hd hz
    refine ⟨s, hs, hlen, hshows.keep fun i hi =>
      h.other _ (hx.slot_lt hn hs (by omega)) ?_⟩
    exact fun d hdmem s' hs' j hj =>
      hx.slot_ne (ne_of_mem_of_not_mem hdmem hd).symm hs hs' (by omega) hj

namespace CallCode

/-- A call overruns if the frame of the callee begins just below the first
one. -/
theorem overruns (h : CallCode code base entry x L g ds args b b' start F q)
    (hpc : s.pc = Int32.ofNat (base + b.code.length)) {xss : List Slots}
    (hxs : List.Forall₂ (fun a z => Stands L s.slot? a.1 z
      ∧ z.length = a.2.width) (args.zip g.paramTypes) xss)
    (hround : ∃ l, 0 < l ∧ l < 2 * reach ∧ s.fp + (F + 2)
      = first - Int32.ofNat l) :
    s.Overruns code first := by
  obtain ⟨l, hpos, hlt, hround⟩ := hround
  obtain ⟨σ, hleads, -⟩ := h.passes s.slot? xss hxs
  obtain ⟨s₁, hgo, hpc₁, hfp₁, -⟩ := hleads s hpc rfl
  obtain ⟨y, hy, hcall, rfl⟩ := h.found s₁ hpc₁
  exact ⟨s₁, y, l, hgo, hy, hcall, hpos, hlt, by rw [hfp₁, hround]⟩

/-- A call comes back with the results in the room for them, and all below them
is as it was. -/
theorem comes_back (h : CallCode code base entry x L g ds args b b' start F q)
    (hLg : Layout.Laid g Lg) (hy : y.func = g) (hst : Standing code base' t B)
    (hcount : args.length = g.params.length)
    (hpc : s.pc = Int32.ofNat (base + b.code.length)) (hfp : s.Above first k)
    (hxs : List.Forall₂ (fun a z => Stands L s.slot? a.1 z
      ∧ z.length = a.2.width) (args.zip g.paramTypes) (xs.map (·.slots)))
    (hbody : ∀ s₁ k₁, s₁.pc = entry → s₁.Above first k₁ →
      y.Mirrors Lg (argFrame g xs) s₁.slot? →
      Finishes code first y B base' rs k₁ N s₁) :
    s.Overruns code first ∧ 2 ^ 32 < k + (N + 3) * reach
      ∨ ∃ s', Machine.Goes code s s' ∧ s'.pc = Int32.ofNat
        (base + (q + 1)) ∧ s'.fp = s.fp
        ∧ List.Forall₂
        (fun ty (v : Value) => v.slots.length = ty.width) g.returns rs
        ∧ Shows s'.slot? (start + Int32.ofNat (Layout.widthOf g g.params))
        (rs.flatMap (·.slots))
        ∧ ∀ z : Int, -(k + reach) ≤ z → z < L.frameSize.toInt →
          z < start.toInt + Layout.widthOf g g.params →
          s'.slot? (Int32.ofInt z) = s.slot? (Int32.ofInt z) := by
  subst hy
  have hreach : reach = 16777218 := rfl
  have hroom := hfp.room
  have hnonneg := h.nonneg
  have htop := h.top
  have hhigh := h.high
  have hsteps : (N + 3) * reach = (N + 2) * reach + reach := Nat.succ_mul _ _
  obtain ⟨hround, hlong⟩ | habove := hfp.callee (F := F) (by omega) hhigh
  · have hfew : 3 * reach ≤ (N + 3) * reach := Nat.mul_le_mul_right _ (by omega)
    exact Or.inl ⟨h.overruns hpc hxs hround, by omega⟩
  obtain ⟨s₁, hgo, hentry, hfp₁, hlink, hback, hparam, hbelow⟩ :=
    h.arrives hLg hcount hpc hxs
  have hmirrors : y.Mirrors Lg (argFrame y.func xs) s₁.slot? := by
    refine mirrors_argFrame ?_ fun i p z hp hlast hz => hparam i p _ hp hlast ?_
    · have hlen := hxs.length_eq
      rw [List.length_zip, List.length_map, Func.paramTypes,
        List.length_map] at hlen
      omega
    · rw [List.getElem?_map, hz]
      rfl
  rcases hbody s₁ _ hentry (habove s₁ hfp₁) hmirrors with ⟨hover, hlong⟩
    | ⟨s₂, hgo₂, hdone⟩
  · exact Or.inl ⟨hover.of_goes hgo, by omega⟩
  obtain ⟨s₃, hstep, hpc₃, hfp₃, hread⟩ := hdone.back hst hlink hback
  -- the slots of the caller, seen from the frame of the callee
  have hslot (off : Int32) : s₃.slot? off = s₂.slot? (off - (F + 2)) := by
    show s₃.read? (s₃.fp + off) = s₂.read? (s₂.fp + (off - (F + 2)))
    rw [hread, hfp₃, hdone.fp, hfp₁]
    congr 1
    grind
  refine Or.inr ⟨s₃, (Relation.ReflTransGen.trans hgo hgo₂).tail hstep, hpc₃,
    hfp₃, hdone.widths,
    hdone.results.move fun i hi => ?_, fun z hlow hframe hz => ?_⟩
  · rw [hslot]
    congr 1
    rw [h.place, Layout.resultsAt]
    simp only [Int32.ofInt_sub, Int32.ofInt_neg, Int32.ofInt_eq_ofNat]
    grind
  · have hcounted : Int32.ofInt z - (F + 2)
        = Int32.ofInt (z - (F.toInt + 2)) := by
      rw [Int32.ofInt_sub, Int32.ofInt_add, Int32.ofInt_toInt]
      rfl
    have hplace := toInt_slot (z := z) (by omega) (by omega)
    rw [hslot, hcounted, hdone.kept _ (by push_cast; omega) (by omega)
      (Or.inl (by rw [Layout.resultsAt]; omega)), ← hcounted,
      hbelow _ (by omega)]

/-- A call does what the interpreter does in it, and nothing below the frame
pointer changes. -/
theorem finishes (h : CallCode code base entry x L g ds args b b' start F q)
    (hx : x.Laid L) (hplain : ∀ v, v ∉ x.static)
    (hfixed : ∀ d ∈ ds, d ∉ x.func.params) (hLg : Layout.Laid g Lg)
    (hy : y.func = g) (hst : Standing code base' t B)
    (hargs : List.Forall₂ (fun v t => v.Suits x.func t) args g.paramTypes)
    (hdests : ds.map x.func.typeOf = g.returns)
    (hxs : args.mapM (look fr) = some xs) (hfr : x.Mirrors L fr s.slot?)
    (hpc : s.pc = Int32.ofNat (base + b.code.length)) (hfp : s.Above first k)
    (hbody : ∀ s₁ k₁, s₁.pc = entry → s₁.Above first k₁ →
      y.Mirrors Lg (argFrame g xs) s₁.slot? →
      Finishes code first y B base' rs k₁ N s₁) :
    s.Overruns code first ∧ 2 ^ 32 < k + (N + 3) * reach
      ∨ ∃ s', Machine.Goes code s s' ∧ s'.pc = Int32.ofNat
        (base + b'.code.length)
        ∧ Machine.Stays k s s' ∧ x.Mirrors L
        (insertAll fr (ds.zip rs)) s'.slot? := by
  have hreach : reach = 16777218 := rfl
  have hroom := hfp.room
  have hsig := hLg.signature
  have hnonneg := h.nonneg
  have htop := h.top
  have hlow := h.low
  have hhigh := h.high
  have hframe := hx.nonneg
  have hcount : args.length = g.params.length := by
    rw [hargs.length_eq, Func.paramTypes, List.length_map]
  have htypes : (args.zip g.paramTypes).map (·.2) = g.paramTypes :=
    List.map_snd_zip hargs.length_eq.ge
  have hvalues : (args.zip g.paramTypes).map (·.1) = args :=
    List.map_fst_zip hargs.length_eq.le
  have hsig' := hx.signature
  have hbottom : -(reach : Int) ≤ Layout.bottom x.func := by
    rw [Layout.bottom]; omega
  have hstands : List.Forall₂ (fun a z => Stands L s.slot? a.1 z
      ∧ z.length = a.2.width)
      (args.zip g.paramTypes) (xs.map (·.slots)) :=
    hfr.stand_all hx (fun p hp => (Operand.Suits.zip hargs p hp).slots)
      (fun _ _ v _ => hplain v)
      (by
        rw [htypes]
        show Layout.widthOf g g.params ≤ 16777216
        omega) (by rw [hvalues, hxs])
  obtain hover | ⟨s₁, hgo, hpc₁, hfp₁, hwidths, hshows, hkept⟩ :=
    h.comes_back hLg hy hst hcount hpc hfp hstands hbody
  · exact Or.inl hover
  -- the results get into their values
  obtain ⟨σ', hleads, hgets⟩ := h.collects s₁.slot? (rs.map (·.slots))
    (List.forall₂_map_right_iff.mpr hwidths) (by rwa [← List.flatMap_def])
  obtain ⟨s', hgo', hpc', hfp', rfl⟩ := hleads s₁ hpc₁ rfl
  refine Or.inr ⟨s', Relation.ReflTransGen.trans hgo hgo', hpc',
    ⟨hfp'.trans hfp₁, fun z hlowz hneg => ?_⟩,
    hgets.mirrors hx (by omega) ?_ (fun d hd => ?_) fun v z hv hd hz => ?_⟩
  · rw [hgets.other _ (Int32.toInt_lt _) fun d hdmem sp hs i hi heq => ?_]
    · exact hkept z hlowz (by omega) (by omega)
    · obtain ⟨-, ⟨-, hpos, -⟩ | ⟨hparam, -⟩⟩ := hx.span d sp hs
      · have hin := (hx.slot_place hs hi).1
        have hlt := hx.slot_lt (n := L.frameSize.toInt.toNat) (by omega) hs hi
        have hplace := toInt_slot (z := z) (by omega) (by omega)
        rw [← heq] at hin hlt
        omega
      · exact hfixed d hdmem hparam
  · rwa [← hdests, List.forall₂_map_left_iff] at hwidths
  · have :=
      Ty.width_le_widthOfList
        (hdests ▸ List.mem_map_of_mem (f := x.func.typeOf) hd)
    omega
  · obtain ⟨sp, hs, hlen, hshow⟩ := hfr v z hv hz
    refine ⟨sp, hs, hlen, hshow.keep fun i hi => ?_⟩
    have hi : (i : Int) < sp.len.toInt := by omega
    obtain ⟨hin, -⟩ := hx.slot_place hs hi
    obtain ⟨-, hspan⟩ := hx.span v sp hs
    have hres : Layout.resultsAt x.func ≤ 0 := by rw [Layout.resultsAt]; omega
    have hthis := hkept (sp.base + Int32.ofNat i).toInt (by omega) (by omega)
      (h.apart v sp i hd hs hi)
    rwa [Int32.ofInt_toInt] at hthis

end CallCode

end MirBackend.Asm
