/-
Removing unread frame memory keeps behaviour.

Dropping an allocation moves every later one to another address. Nobody can
tell as long as addresses are *private*: they only serve as addresses of loads
and stores, in the function that reserved the memory, and no access reaches
beyond what was reserved (`Func.Private`). Then frames agree on all values that
are no addresses, and an address that is still read has a counterpart with the
same words (`Framed`).

What the cleanup calls unread is unread: every read of such an address is the
address of a store, and these go (`Prunes`). So every call answers as it did and
leaves the same trace (`run_preserves_private_answers`).
-/
import Mathlib
import MirBackend.Proofs.Interp.Injection
import MirBackend.Proofs.Pass.Grounding
import MirBackend.Proofs.Pass.TrimmedRuns

namespace MirBackend

-- ======================================================= private addresses

/-- The operands of an instruction but for the address of a load or a store. -/
def Instr.shown : Instr → List Operand
  | .load .. => []
  | .store _ v _ => [v]
  | i => i.operands

/-- Whether the instruction makes an address other than by reserving memory for
a type. -/
def Instr.derivesAddress : Instr → Bool
  | .addressOf .. | .elementPtr .. | .makeArray .. => true
  | _ => false

namespace Func

open Interp

/-- The address and the type of a load or a store. -/
def access? (f : Func) : Instr → Option (Operand × Ty)
  | .load _ t a => some (a, t)
  | .store a v t => some (a, if t.isMissing then f.operandType v else t)
  | _ => none

/-- Addresses do not show: every load and store goes to memory that the function
reserved, does not reach beyond it and moves no array; an address serves for
nothing else. -/
structure Private (f : Func) : Prop where
  single : f.SingleAssignment
  access : ∀ i a t, f.HasInstr i → f.access? i = some (a, t) →
    t.Flat ∧ ∃ d u, a = .value d
    ∧ f.HasInstr (.frameAlloc d u) ∧ ∀ n k, t.size = some n →
    u.size = some k → n ≤ k
  hidden : ∀ d u, f.HasInstr (.frameAlloc d u) →
    (∀ i, f.HasInstr i → .value d ∉ i.shown)
    ∧ ∀ b blk, f.block? b = some blk → d ∉ usesOf blk.term
  plain : ∀ i, f.HasInstr i → i.derivesAddress = false

/-- Where addresses do not show, they do not when some instructions are gone but
no memory. -/
theorem Private.keepInstrs {f : Func} (h : f.Private) {keep : Instr → Bool}
    (hkeep : ∀ d u, keep (.frameAlloc d u) = true) :
    (f.keepInstrs keep).Private where
  single := h.single.sublist rfl (definedValues_keepInstrs_sublist f keep)
  access := by
    intro i a t hi ha
    obtain ⟨ht, d, u, hd, hu, hle⟩ :=
      h.access i a t (hasInstr_keepInstrs.mp hi).1 ha
    exact ⟨ht, d, u, hd, hasInstr_keepInstrs.mpr ⟨hu, hkeep d u⟩, hle⟩
  hidden := by
    intro d u hd
    obtain ⟨hinstrs, hterms⟩ := h.hidden d u (hasInstr_keepInstrs.mp hd).1
    refine ⟨fun i hi => hinstrs i (hasInstr_keepInstrs.mp hi).1,
      fun b blk hb => ?_⟩
    rw [block?_keepInstrs] at hb
    obtain ⟨blk', hb', rfl⟩ := Option.map_eq_some_iff.mp hb
    exact hterms b blk' hb'
  plain i hi := h.plain i (hasInstr_keepInstrs.mp hi).1

/-- What may go: memory, and stores to memory that goes. What stays has its
memory. -/
structure Prunes (f : Func) (keep : Instr → Bool) : Prop where
  drops : ∀ i, f.HasInstr i → keep i = false → (∃ d u, i = .frameAlloc d u)
    ∨ ∃ d v t, i = .store (.value d) v t ∧ ∀ u, keep (.frameAlloc d u) = false
  needs : ∀ i d t, f.HasInstr i → keep i = true →
    f.access? i = some (.value d, t) →
    ∀ u, keep (.frameAlloc d u) = true

/-- Nothing goes. -/
theorem prunes_none (f : Func) : f.Prunes fun _ => true where
  drops _ _ h := by cases h
  needs _ _ _ _ _ _ _ := rfl

/-- Keeping all instructions changes nothing. -/
theorem keepInstrs_all (f : Func) : f.keepInstrs (fun _ => true) = f := by
  have hsame :
      (fun b : Block => { b with instrs := b.instrs.filter fun _ => true })
      = id := by
    funext b
    rw [List.filter_true]
    rfl
  rw [keepInstrs, mapBlocks, hsame, Option.map_id_fun, List.map_id]

-- ================================================================== frames

variable {f : Func} {keep : Instr → Bool} {ω ω' : Injection} {fr fr' : Frame}

/-- Frames that agree on values that are no addresses; an address of memory that
stays has a counterpart, one of memory that goes has none. -/
structure Framed (f : Func) (keep : Instr → Bool) (ω : Injection)
    (fr fr' : Frame) : Prop where
  same : ∀ v, (∀ u, ¬ f.HasInstr (.frameAlloc v u)) → fr[v]? = fr'[v]?
  stays : ∀ d u x, f.HasInstr (.frameAlloc d u) →
    keep (.frameAlloc d u) = true → fr[d]? = some x →
    ∃ a n a', u.size = some n ∧ x = ⟨[Int64.ofNat a], 0⟩
      ∧ fr'[d]? = some ⟨[Int64.ofNat a'], 0⟩
      ∧ ω.Carries a n.toInt.toNat a'
  goes : ∀ d u x, f.HasInstr (.frameAlloc d u) →
    keep (.frameAlloc d u) = false → fr[d]? = some x →
    ∃ a n, u.size = some n ∧ x = ⟨[Int64.ofNat a], 0⟩ ∧ ω.Hides a n.toInt.toNat

namespace Framed

/-- Frames that correspond do so when the injection grows. -/
theorem mono (h : Framed f keep ω fr fr') (hω : ω ≤ ω') :
    Framed f keep ω' fr fr' where
  same := h.same
  stays d u x hd hk hx := by
    obtain ⟨a, n, a', hn, rfl, hx', hc⟩ := h.stays d u x hd hk hx
    exact ⟨a, n, a', hn, rfl, hx', hc.mono hω⟩
  goes d u x hd hk hx := by
    obtain ⟨a, n, hn, rfl, hc⟩ := h.goes d u x hd hk hx
    exact ⟨a, n, hn, rfl, hc.mono hω⟩

/-- Values that are no addresses are assigned in both frames. -/
theorem insertAll (h : Framed f keep ω fr fr') {ps : List (ValueId × Value)}
    (hps : ∀ v ∈ ps.map (·.1), ∀ u, ¬ f.HasInstr (.frameAlloc v u)) :
    Framed f keep ω (Interp.insertAll fr ps) (Interp.insertAll fr' ps) := by
  have hout {d : ValueId} {u : Ty} (hd : f.HasInstr (.frameAlloc d u)) :
      d ∉ ps.map (·.1) :=
    fun hmem => hps d hmem u hd
  refine ⟨fun v hv => getElem?_insertAll_congr fun _ => h.same v hv, ?_, ?_⟩
  · intro d u x hd hk hx
    rw [getElem?_insertAll_of_not_mem (hout hd)] at hx ⊢
    exact h.stays d u x hd hk hx
  · intro d u x hd hk hx
    rw [getElem?_insertAll_of_not_mem (hout hd)] at hx
    exact h.goes d u x hd hk hx

/-- Operands that show are the same. -/
theorem agree (h : Framed f keep ω fr fr') (hf : f.Private) {i : Instr}
    (hi : f.HasInstr i) : Agree fr fr' i.shown := by
  intro o ho
  cases o with
  | value v => exact h.same v fun u hu => (hf.hidden v u hu).1 i hi ho
  | _ => rfl

/-- Control goes the same way: no terminator reads a private address. -/
theorem nextOf_eq (h : Framed f keep ω fr fr') (hf : f.Private)
    {b : BlockId} {blk : Block} (hb : f.block? b = some blk) :
    nextOf fr' blk.term = nextOf fr blk.term := by
  cases ht : blk.term with
  | none => rfl
  | some t =>
      refine (nextOf_congr (agree_of_ids fun v hv =>
        h.same v fun u hu => ?_)).symm
      refine (hf.hidden v u hu).2 b blk hb ?_
      rw [ht]
      exact hv

/-- Results of instructions other than reservations of memory are no
addresses. -/
theorem no_address (hf : f.Private) {i : Instr} (hi : f.HasInstr i)
    (hother : ∀ d u, i ≠ .frameAlloc d u) {v : ValueId}
    (hv : v ∈ i.dests) (u : Ty) : ¬ f.HasInstr (.frameAlloc v u) :=
  fun hu => hother v u (hf.single.instr_unique hi hu hv List.mem_cons_self)

/-- Frames after the address of some memory is set. -/
theorem update (h : Framed f keep ω fr fr') (hf : f.Private)
    {d : ValueId} {u : Ty} (hd : f.HasInstr (.frameAlloc d u)) (hω : ω ≤ ω')
    {fr₁ fr₁' : Frame} (hold : ∀ v, d ≠ v → fr₁[v]? = fr[v]?)
    (hnew : ∀ v, d ≠ v → fr₁'[v]? = fr'[v]?)
    (hstays : keep (.frameAlloc d u) = true → ∀ x, fr₁[d]? = some x →
      ∃ a n a', u.size = some n
      ∧ x = ⟨[Int64.ofNat a], 0⟩ ∧ fr₁'[d]? = some ⟨[Int64.ofNat a'], 0⟩
      ∧ ω'.Carries a n.toInt.toNat a')
    (hgoes : keep (.frameAlloc d u) = false → ∀ x, fr₁[d]? = some x →
      ∃ a n, u.size = some n
      ∧ x = ⟨[Int64.ofNat a], 0⟩ ∧ ω'.Hides a n.toInt.toNat) :
    Framed f keep ω' fr₁ fr₁' := by
  refine ⟨fun v hv => ?_, fun e t x he hke hx => ?_, fun e t x he hke hx => ?_⟩
  · have hdv : d ≠ v := by
      rintro rfl
      exact hv u hd
    rw [hold v hdv, hnew v hdv, h.same v hv]
  · by_cases hde : d = e
    · subst hde
      cases hf.single.instr_unique hd he List.mem_cons_self List.mem_cons_self
      exact hstays hke x hx
    · rw [hold e hde] at hx
      rw [hnew e hde]
      exact (h.mono hω).stays e t x he hke hx
  · by_cases hde : d = e
    · subst hde
      cases hf.single.instr_unique hd he List.mem_cons_self List.mem_cons_self
      exact hgoes hke x hx
    · rw [hold e hde] at hx
      exact (h.mono hω).goes e t x he hke hx

/-- The address of memory that stays is set. -/
theorem reserve (h : Framed f keep ω fr fr') (hf : f.Private)
    {d : ValueId} {u : Ty} (hd : f.HasInstr (.frameAlloc d u))
    (hk : keep (.frameAlloc d u) = true) (hω : ω ≤ ω') {a a' : Nat} {n : Int64}
    (hn : u.size = some n) (hc : ω'.Carries a n.toInt.toNat a') :
    Framed f keep ω' (fr.insert d ⟨[Int64.ofNat a], 0⟩)
      (fr'.insert d ⟨[Int64.ofNat a'], 0⟩) := by
  refine h.update hf hd hω
    (fun v hv => by rw [getElem?_insert_frame, if_neg hv])
    (fun v hv => by rw [getElem?_insert_frame, if_neg hv])
    (fun _ x hx => ?_) fun hk' => ?_
  · rw [getElem?_insert_frame, if_pos rfl, Option.some.injEq] at hx
    exact ⟨a, n, a', hn, hx.symm, by rw [getElem?_insert_frame, if_pos rfl], hc⟩
  · rw [hk] at hk'
    cases hk'

/-- The address of memory that goes is set. -/
theorem forgo (h : Framed f keep ω fr fr') (hf : f.Private)
    {d : ValueId} {u : Ty} (hd : f.HasInstr (.frameAlloc d u))
    (hk : keep (.frameAlloc d u) = false) (hω : ω ≤ ω') {a : Nat} {n : Int64}
    (hn : u.size = some n) (hc : ω'.Hides a n.toInt.toNat) :
    Framed f keep ω' (fr.insert d ⟨[Int64.ofNat a], 0⟩) fr' := by
  refine h.update hf hd hω
    (fun v hv => by rw [getElem?_insert_frame, if_neg hv])
    (fun _ _ => rfl) (fun hk' => ?_) fun _ x hx => ?_
  · rw [hk] at hk'
    cases hk'
  · rw [getElem?_insert_frame, if_pos rfl, Option.some.injEq] at hx
    exact ⟨a, n, hn, hx.symm, hc⟩

/-- No argument of a call is an address of the function called. -/
theorem argFrame (hf : f.Private) (keep : Instr → Bool) (ω : Injection)
    (xs : List Value) :
    Framed f keep ω (argFrame f xs) (Interp.argFrame f xs) := by
  have hempty {v : ValueId} {x : Value} : ¬ (∅ : Frame)[v]? = some x := by simp
  refine insertAll ⟨fun _ _ => rfl, ?_, ?_⟩ fun v hv u hu => ?_
  · exact fun d u x _ _ hx => absurd hx hempty
  · exact fun d u x _ _ hx => absurd hx hempty
  · obtain ⟨p, hp, rfl⟩ := List.mem_map.mp hv
    exact hf.single.params _ (List.of_mem_zip hp).1
      (mem_definedValues_iff_hasInstr.mpr ⟨_, hu, List.mem_cons_self⟩)

end Framed

-- ================================================================== places

/-- A place in the function and the place in what is kept of it. -/
structure Tracked (f : Func) (keep : Instr → Bool) (ω : Injection)
    (c c' : Interp.Place) : Prop where
  block : c'.block = c.block
  rest : c'.rest = c.rest.filter keep
  here : ∀ i ∈ c.rest, f.HasInstr i
  frames : Framed f keep ω c.frame c'.frame

/-- Only allocations and stores are dropped. -/
theorem Prunes.keeps (h : f.Prunes keep) {i : Instr} (hi : f.HasInstr i)
    (halloc : ∀ d u, i ≠ .frameAlloc d u) (hstore : ∀ a v t, i ≠ .store a v t) :
    keep i = true := by
  by_contra hk
  rcases h.drops i hi (by simpa using hk) with ⟨d, u, hd⟩ | ⟨d, v, t, hs, -⟩
  · exact halloc d u hd
  · exact hstore _ v t hs

/-- Entering a block: its phis stay and take the same values. -/
theorem Tracked.entered (hf : f.Private) (hp : f.Prunes keep)
    {b prev : BlockId} {blk : Block} (hb : f.block? b = some blk)
    (hbody : ∀ i ∈ blk.body, i.isPhi = false) (hframes : Framed f keep ω fr fr')
    {ps : List (ValueId × Value)}
    (hps : phiLooks fr prev blk.leadingPhis = some ps) :
    phiLooks fr' prev (keptBlock keep blk).leadingPhis = some ps
      ∧ Tracked f keep ω ⟨b, blk.body, Interp.insertAll fr ps⟩
        ⟨b, (keptBlock keep blk).body, Interp.insertAll fr' ps⟩ := by
  obtain ⟨hlead, hrest⟩ := keptBlock_parts keep hbody
  have hhere (i : Instr) (hi : i ∈ blk.leadingPhis) : f.HasInstr i :=
    ⟨b, blk, hb, Block.mem_of_mem_leadingPhis hi⟩
  have hphi (i : Instr) (hi : i ∈ blk.leadingPhis) :
      ∃ d t ss, i = .phi d t ss := by
    have := Block.isPhi_of_mem_leadingPhis hi
    cases i with
    | phi d t ss => exact ⟨d, t, ss, rfl⟩
    | _ => cases this
  have hall : blk.leadingPhis.filter keep = blk.leadingPhis := by
    refine List.filter_eq_self.mpr fun i hi => ?_
    obtain ⟨d, t, ss, rfl⟩ := hphi i hi
    exact hp.keeps (hhere _ hi) (by simp) (by simp)
  rw [hlead, hall, hrest]
  refine ⟨?_, rfl, rfl, fun i hi => ⟨b, blk, hb, Block.mem_of_mem_body hi⟩, ?_⟩
  · rw [← hps]
    refine phiLooks_congr fun i hi => ?_
    obtain ⟨d, t, ss, rfl⟩ := hphi i hi
    exact hframes.agree hf (hhere _ hi)
  · refine hframes.insertAll fun v hv u => ?_
    rw [(phiLooks_spec (fun i hi => Block.isPhi_of_mem_leadingPhis hi)
      hps).1] at hv
    obtain ⟨i, hi, hv⟩ := List.mem_flatMap.mp hv
    obtain ⟨d, t, ss, rfl⟩ := hphi i hi
    exact Framed.no_address hf (hhere _ hi) (by simp) hv u

-- ============================================================= instructions

/-- Machines that differ in memory only, with the same contents in
counterparts. -/
def Alike (ω : Injection) (w w' : Machine) : Prop :=
  w' = { w with memory := w'.memory } ∧ ω.Relates w.memory w'.memory

/-- Where an access goes, how much was reserved there, and what corresponds to
it. -/
theorem Private.reach (hf : f.Private) {i : Instr} (hi : f.HasInstr i)
    {address : Operand} {t : Ty} (ha : f.access? i = some (address, t))
    (hframes : Framed f keep ω fr fr') {x : Int64}
    (hx : lookScalar fr address = some x) :
    t.Flat ∧ ∃ d u a n, address = .value d ∧ x = Int64.ofNat a ∧ a ≤ ω.old
      ∧ (t.size.isSome = true → t.width < 2 ^ 63 → t.width ≤ n)
      ∧ (keep (.frameAlloc d u) = true →
        ∃ a', lookScalar fr' address = some (Int64.ofNat a') ∧ ω.Carries a n a')
      ∧ (keep (.frameAlloc d u) = false → ω.Hides a n) := by
  obtain ⟨ht, d, u, rfl, hu, hle⟩ := hf.access i _ t hi ha
  obtain ⟨y, hy, hslots⟩ := lookScalar_eq_some.mp hx
  have hfits (n : Int64) (hn : u.size = some n) (hsized : t.size.isSome = true)
      (hwidth : t.width < 2 ^ 63) : t.width ≤ n.toInt.toNat := by
    obtain ⟨k, hk⟩ := Option.isSome_iff_exists.mp hsized
    exact ht.width_le hk hwidth (hle k n hk hn)
  refine ⟨ht, d, u, ?_⟩
  cases hk : keep (.frameAlloc d u) with
  -- the frame is kept, and the copy has one of its own
  | true =>
      obtain ⟨a, n, a', hn, rfl, hy', hc⟩ := hframes.stays d u y hu hk hy
      cases hslots
      refine ⟨a, _, rfl, rfl, by have := hc.old; omega, hfits n hn, fun _ => ?_,
        fun h => by cases h⟩
      exact ⟨a', lookScalar_eq_some.mpr ⟨_, hy', rfl⟩, hc⟩
  -- the frame is dropped, and only the original can write it
  | false =>
      obtain ⟨a, n, hn, rfl, hc⟩ := hframes.goes d u y hu hk hy
      cases hslots
      exact ⟨a, _, rfl, rfl, by have := hc.old; omega, hfits n hn,
        fun h => (by cases h), fun _ => hc⟩

variable {m' : Module} {k : FuncId} {cur : BlockId} {i : Instr}
  {is : List Instr} {c' : Interp.Place} {w w₁ w' : Machine} {fr₁ : Frame}

/-- How the kept part follows an instruction. -/
def Matched (f : Func) (keep : Instr → Bool) (m' : Module) (k : FuncId)
    (ω : Injection) (c : Interp.Place) (w : Machine) (c' : Interp.Place)
    (w' : Machine) : Prop :=
  ∃ ω₁ c₁ w₁', ω ≤ ω₁ ∧ Tracked f keep ω₁ c c₁ ∧ Alike ω₁ w w₁'
    ∧ Reaches m' k c' w' c₁ w₁'

/-- Where an instruction is kept, both runs do it and stay tracked. -/
theorem Tracked.kept (hR : Tracked f keep ω ⟨cur, i :: is, fr⟩ c')
    (hnew : m'.func? k = some (f.keepInstrs keep))
    (hk : keep i = true) (hω : ω ≤ ω') {fr₁' : Frame} {w₁' : Machine}
    (hframes : Framed f keep ω' fr₁ fr₁') (hM : Alike ω' w₁ w₁')
    (hrun : exec ⟨[]⟩ refuse (f.keepInstrs keep) c'.frame i w' = .ok fr₁' w₁') :
    Matched f keep m' k ω ⟨cur, is, fr₁⟩ w₁ c' w' := by
  have hrest := hR.rest
  rw [List.filter_cons_of_pos hk] at hrest
  refine ⟨ω', ⟨c'.block, is.filter keep, fr₁'⟩, w₁', hω,
    ⟨hR.block, rfl, ?_, hframes⟩, hM, ?_⟩
  · exact fun j hj => hR.here j (List.mem_cons_of_mem _ hj)
  · intro n vs w₂ hn
    refine ⟨n + 1, le_refl _, ?_⟩
    rw [hrest]
    exact .instr hnew hrun hn

/-- Where it is dropped, the first run does it alone. -/
theorem Tracked.dropped (hR : Tracked f keep ω ⟨cur, i :: is, fr⟩ c')
    (hk : keep i = false) (hω : ω ≤ ω')
    (hframes : Framed f keep ω' fr₁ c'.frame) (hM : Alike ω' w₁ w') :
    Matched f keep m' k ω ⟨cur, is, fr₁⟩ w₁ c' w' := by
  have hrest := hR.rest
  rw [List.filter_cons_of_neg (by simp [hk])] at hrest
  refine ⟨ω', c', w', hω, ⟨hR.block, hrest, ?_, hframes⟩, hM, .refl _ _⟩
  exact fun j hj => hR.here j (List.mem_cons_of_mem _ hj)

/-- Every instruction is followed. -/
theorem Tracked.instr (hf : f.Private) (hp : f.Prunes keep)
    (hnew : m'.func? k = some (f.keepInstrs keep))
    (hR : Tracked f keep ω ⟨cur, i :: is, fr⟩ c') (hM : Alike ω w w')
    (hrun : exec ⟨[]⟩ refuse f fr i w = .ok fr₁ w₁) :
    Matched f keep m' k ω ⟨cur, is, fr₁⟩ w₁ c' w' := by
  have hi := hR.here i List.mem_cons_self
  have hframes : Framed f keep ω fr c'.frame := hR.frames
  have hagree := hframes.agree hf hi
  obtain ⟨hw, hmem⟩ := hM
  have hsound := hmem.sound.toBounded
  have hold := hmem.old_le
  -- an instruction that looks at values only, and whose operands show, does the
  -- same on both sides
  have hlocal (hloc : i.isLocal = true) (hshown : i.shown = i.operands)
      (hk : keep i = true)
      (hother : ∀ d u, i ≠ .frameAlloc d u) :
          Matched f keep m' k ω ⟨cur, is, fr₁⟩ w₁ c' w' := by
    rw [hshown] at hagree
    obtain ⟨vs, -, rfl, hrun'⟩ :=
      exec_sets (g := f.keepInstrs keep) hagree (fun _ _ => rfl) w fr₁ w₁ hrun
    obtain ⟨rfl, hany⟩ := exec_detached hloc w _ w₁ hrun'
    refine hR.kept hnew hk (le_refl ω) (hframes.insertAll fun v hv u => ?_)
      ⟨hw, hmem⟩ (hany w')
    obtain ⟨p, hp, rfl⟩ := List.mem_map.mp hv
    exact Framed.no_address hf hi hother (List.of_mem_zip hp).1 u
  cases i with
  -- calls are no matter of a single function, and addresses are not computed
  -- with
  | call ds c as sig => cases c <;> exact absurd hrun failWith_ne_ok
  | addressOf | elementPtr | makeArray => cases hf.plain _ hi
  -- both sides reserve the memory, or the first one only
  | frameAlloc d u =>
      obtain ⟨n, x, memory, hn, halloc, rfl, rfl⟩ :=
        exec_frameAlloc_ok_iff.mp hrun
      cases hk : keep (.frameAlloc d u) with
      | true =>
          obtain ⟨rfl, memory', halloc', hmem', hc⟩ := hmem.alloc_both halloc
          refine hR.kept hnew hk (ω.le_both _)
            (hframes.reserve hf hi hk (ω.le_both _) hn hc)
            ⟨?_, hmem'⟩ (exec_frameAlloc_ok_iff.mpr ⟨n, _, memory', hn,
            halloc', rfl, rfl⟩)
          rw [hw]
      | false =>
          obtain ⟨rfl, hmem', hc⟩ := hmem.alloc_old halloc
          refine hR.dropped hk (ω.le_oldOnly _)
            (hframes.forgo hf hi hk (ω.le_oldOnly _) hn hc)
            ⟨?_, hmem'⟩
          rw [hw]
  -- memory that is loaded from stays, and has a counterpart of the same
  -- contents
  | load d t address =>
      obtain ⟨x, v, hx, hload, rfl, rfl⟩ := exec_load_ok_iff.mp hrun
      have hk := hp.keeps hi (by simp) (by simp)
      obtain ⟨ht, e, u, a, n, rfl, rfl, ha, hfits, hlive, -⟩ :=
        hf.reach hi rfl hframes hx
      obtain ⟨a', hx', hc⟩ := hlive (hp.needs _ e t hi hk rfl u)
      obtain ⟨hsized, -, hin⟩ := Memory.load_bounds ht hsound (by omega) hload
      have hsize := hsound.limit
      unfold Memory.maxWords at hsize
      have hload' := hmem.load ht hc (hfits hsized (by omega)) hload
      have hset : Framed f keep ω (fr.insert d v) (c'.frame.insert d v) := by
        show Framed f keep ω (Interp.insertAll fr [(d, v)])
          (Interp.insertAll c'.frame [(d, v)])
        refine hframes.insertAll fun y hy u => ?_
        rw [List.map_singleton, List.mem_singleton] at hy
        subst hy
        exact Framed.no_address hf hi (by simp) List.mem_cons_self u
      exact hR.kept hnew hk (le_refl ω) hset ⟨hw, hmem⟩
        (exec_load_ok_iff.mpr ⟨_, v, hx', hload', rfl, rfl⟩)
  -- a store that stays goes to the counterpart; one that goes was to memory
  -- that goes with it
  | store address v t =>
      obtain ⟨x, y, memory, hx, hy, hstore, rfl, rfl⟩ :=
        exec_store_ok_iff.mp hrun
      obtain ⟨ht, e, u, a, n, rfl, rfl, ha, hfits, hlive, hgone⟩ :=
        hf.reach hi rfl hframes hx
      obtain ⟨⟨hsized, -, hin⟩, -⟩ :=
        Memory.store_bounds ht hsound (by omega) hstore
      have hsize := hsound.limit
      unfold Memory.maxWords at hsize
      have hwidth := hfits hsized (by omega)
      cases hk : keep (.store (.value e) v t) with
      | true =>
          obtain ⟨a', hx', hc⟩ := hlive (hp.needs _ e _ hi hk rfl u)
          obtain ⟨memory', hstore', hmem'⟩ := hmem.store ht hc hwidth hstore
          have hy' : look c'.frame v = some y := by
            rw [← hagree v List.mem_cons_self]; exact hy
          refine hR.kept hnew hk (le_refl ω) hframes ⟨?_, hmem'⟩
            (exec_store_ok_iff.mpr ⟨_, y, memory', hx', hy', hstore', rfl, rfl⟩)
          rw [hw]
      | false =>
          have hdead : keep (.frameAlloc e u) = false := by
            rcases hp.drops _ hi hk with ⟨d, u', hd⟩ | ⟨d, v', t', hs, hdead⟩
            · cases hd
            · cases hs
              exact hdead u
          refine hR.dropped hk (le_refl ω) hframes
            ⟨?_, hmem.store_old ht (hgone hdead) hwidth hstore⟩
          rw [hw]
  -- what is traced shows, so it is the same
  | debug message vs =>
      obtain ⟨xs, hxs, rfl, rfl⟩ := exec_debug_ok_iff.mp hrun
      have hxs' : vs.mapM (look c'.frame) = some xs :=
        (mapM_look_congr (show Agree _ _ vs from hagree)).symm.trans hxs
      have hM' :
          Alike ω { w with trace := ⟨message, xs.map (·.slots)⟩ :: w.trace }
          { w' with trace := ⟨message, xs.map (·.slots)⟩ :: w'.trace } :=
            ⟨by rw [hw], hmem⟩
      exact hR.kept hnew (hp.keeps hi (by simp) (by simp))
        (le_refl ω) hframes hM'
        (exec_debug_ok_iff.mpr ⟨xs, hxs', rfl, rfl⟩)
  | _ => exact hlocal rfl rfl (hp.keeps hi (by simp) (by simp)) (by simp)

-- ================================================================= modules

/-- Places related in the function they are in. -/
def TrackedIn (m : Module) (keep : FuncId → Instr → Bool)
    (ω : Injection) (k : FuncId) (c c' : Interp.Place) : Prop :=
  ∃ f, m.func? k = some f ∧ Tracked f (keep k) ω c c'

/-- A module of which every function lost unread memory follows the module as it
was. -/
theorem prune_refinement {m m' : Module} {keep : FuncId → Instr → Bool}
    (hfuncs : ∀ k f, m.func? k = some f →
      m'.func? k = some (f.keepInstrs (keep k)))
    (hprivate : ∀ k f, m.func? k = some f → f.Private)
    (hprunes : ∀ k f, m.func? k = some f → f.Prunes (keep k)) :
    Refinement m m' (fun _ _ => True) Alike (TrackedIn m keep) where
  enter := by
    intro ω k f xs b ps hf hcount hb hbody hps
    -- phis stay, and take values that are no addresses
    obtain ⟨hps', hT⟩ :=
      Tracked.entered (hprivate k f hf) (hprunes k f hf) hb hbody
      (Framed.argFrame (hprivate k f hf) (keep k) ω xs) hps
    exact ⟨_, _, ps, hfuncs k f hf, hcount,
      block?_keepInstrs_of hb, hps', f, hf, hT⟩
  instr := by
    rintro ω k f cur i is fr c' fr₁ w w₁ w' hf - ⟨f', hf', hR⟩ hM hrun
    rw [hf, Option.some.injEq] at hf'
    subst hf'
    obtain ⟨ω₁, c₁, w₁', hω, hR₁, hM₁, hreach⟩ :=
      hR.instr (hprivate k f hf) (hprunes k f hf) (hfuncs k f hf) hM hrun
    exact ⟨ω₁, c₁, w₁', hω, ⟨f, hf, hR₁⟩, hM₁, hreach⟩
  call := by
    rintro ω k f cur ds c as sig is fr c' xs hf ⟨f', hf', hR⟩ hxs
    rw [hf, Option.some.injEq] at hf'
    subst hf'
    have hi := hR.here _ List.mem_cons_self
    have hrest := hR.rest
    rw [List.filter_cons_of_pos
      ((hprunes k f hf).keeps hi (by simp) (by simp))] at hrest
    have hagree : Agree fr c'.frame as := hR.frames.agree (hprivate k f hf) hi
    -- a call stays, with arguments that are no addresses
    have hxs' := (mapM_look_congr hagree).symm.trans hxs
    refine ⟨is.filter (keep k), c'.frame, by rw [← hrest], hxs',
      fun ω₁ rs hω _ => ⟨f, hf, ?_⟩⟩
    refine ⟨hR.block, rfl, fun j hj => hR.here j (List.mem_cons_of_mem _ hj),
      ?_⟩
    refine (hR.frames.mono hω).insertAll fun v hv u => ?_
    obtain ⟨p, hp, rfl⟩ := List.mem_map.mp hv
    exact Framed.no_address (hprivate k f hf) hi (by simp)
      (List.of_mem_zip hp).1 u
  jump := by
    rintro ω k f cur b next nb fr ⟨cb, crest, cfr⟩ ps hf
      - ⟨f', hf', hR⟩ hb hterm hthere hnb hbody hps
    rw [hf, Option.some.injEq] at hf'
    subst hf'
    obtain rfl : cb = cur := hR.block
    obtain rfl : crest = [] := hR.rest
    obtain ⟨hps', hT⟩ :=
      Tracked.entered (hprivate k f hf) (hprunes k f hf) hnb hbody hR.frames hps
    refine ⟨_, ⟨f, hf, hT⟩, fun w n vs w' hn => ⟨n + 1, le_refl _, ?_⟩⟩
    -- terminators stay as they are
    have hterm' : nextOf cfr (keptBlock (keep k) b).term = some (.block next) :=
      (hR.frames.nextOf_eq (hprivate k f hf) hb).trans hterm
    exact .jump (hfuncs k f hf) (block?_keepInstrs_of hb) trivial hterm' hthere
      (block?_keepInstrs_of hnb) hps' hn
  ret := by
    rintro ω k f cur b fr ⟨cb, crest, cfr⟩ vs hf - ⟨f', hf', hR⟩ hb hterm w
    rw [hf, Option.some.injEq] at hf'
    subst hf'
    obtain rfl : cb = cur := hR.block
    obtain rfl : crest = [] := hR.rest
    exact .ret (hfuncs k f hf) (block?_keepInstrs_of hb)
      ((hR.frames.nextOf_eq (hprivate k f hf) hb).trans hterm)
  leave := by
    rintro ω k f cur b fr ⟨cb, crest, cfr⟩ hf - ⟨f', hf', hR⟩ hb hterm w
    rw [hf, Option.some.injEq] at hf'
    subst hf'
    obtain rfl : cb = cur := hR.block
    obtain rfl : crest = [] := hR.rest
    exact .leave (hfuncs k f hf) (block?_keepInstrs_of hb)
      ((hR.frames.nextOf_eq (hprivate k f hf) hb).trans hterm)

end Func

-- ================================================================= cleanup

namespace FrameCleanup

open Func Interp

variable {f : Func}

/-- The reads of an instruction but for the address of a store. -/
def otherUses : Instr → List ValueId
  | .store (.value _) v _ => Operand.ids [v]
  | i => i.uses

/-- The address of a store. -/
def storeAddress? : Instr → Option ValueId
  | .store (.value a) _ _ => some a
  | _ => none

/-- A value is used as the address of a store or otherwise. -/
theorem count_uses (a : ValueId) (i : Instr) :
    i.uses.count a = (storeAddress? i).toList.count a
        + (otherUses i).count a := by
  cases i with
  | store address v t =>
      cases address with
      | value b =>
          rw [show (Instr.store (.value b) v t).uses = [b] ++ Operand.ids [v]
            from rfl, List.count_append]
          rfl
      | _ => rw [storeAddress?, otherUses, Option.toList_none, List.count_nil,
        Nat.zero_add] <;> simp
  | _ => rw [storeAddress?, otherUses, Option.toList_none, List.count_nil,
    Nat.zero_add] <;> simp

/-- So a value that is read is read otherwise, or stored at. -/
theorem mem_uses_cases {d : ValueId} {i : Instr} (h : d ∈ i.uses) :
    d ∈ otherUses i ∨ ∃ v t, i = .store (.value d) v t := by
  cases i with
  | store address v t =>
      cases address with
      | value e =>
          rcases List.mem_cons.mp (show d ∈ e :: Operand.ids [v] from h)
            with rfl | h
          · exact Or.inr ⟨v, t, rfl⟩
          · exact Or.inl h
      | _ => exact Or.inl h
  | _ => exact Or.inl h

/-- A list made of parts that split in two is counted by the two halves. -/
theorem count_flatMap_split {α : Type} {as : List α}
    {g k l : α → List ValueId} {v : ValueId}
    (h : ∀ a ∈ as, (g a).count v = (k a).count v + (l a).count v) :
    (as.flatMap g).count v = (as.flatMap k).count v
      + (as.flatMap l).count v := by
  induction as with
  | nil => rfl
  | cons a as ih =>
      rw [List.flatMap_cons, List.flatMap_cons, List.flatMap_cons,
        List.count_append,
        List.count_append, List.count_append, h a List.mem_cons_self,
        ih fun b hb => h b (List.mem_cons_of_mem _ hb)]
      omega

/-- Unread memory is read by nothing but stores to it. -/
theorem unreadMemory_spec {dead : List ValueId}
    (h : unreadMemory f = .ok dead) {a : ValueId} (ha : a ∈ dead) :
    (∀ i, f.HasInstr i → a ∉ otherUses i)
      ∧ ∀ b blk, f.block? b = some blk → a ∉ usesOf blk.term := by
  obtain ⟨rs, hrs, h⟩ := bind_eq_ok.mp h
  obtain ⟨esc, -, h⟩ := bind_eq_ok.mp h
  obtain ⟨as, -, h⟩ := bind_eq_ok.mp h
  cases h
  obtain ⟨bs, hblocks, rfl⟩ := reads_eq_ok hrs
  have hcount := (List.mem_filter.mp ha).2
  rw [Bool.and_eq_true, beq_iff_eq] at hcount
  have hstores : storeAddresses f = bs.flatMap fun blk =>
      blk.instrs.filterMap storeAddress? := by
    rw [storeAddresses, hblocks, List.flatMap_map]
    rfl
  -- a read is the address of a store or is any other
  have hsplit (blk : Block) : (readsIn blk).count a
      = (blk.instrs.filterMap storeAddress?).count a
      + (blk.instrs.flatMap otherUses ++ usesOf blk.term).count a := by
    rw [readsIn, List.count_append, List.count_append,
      List.filterMap_eq_flatMap_toList,
      count_flatMap_split fun i _ => count_uses a i, Nat.add_assoc]
  rw [← List.flatMap_def, hstores,
    count_flatMap_split fun blk _ => hsplit blk] at hcount
  -- as many reads as stores, so none is left for the others
  have hnone : a ∉ bs.flatMap fun blk => blk.instrs.flatMap otherUses
      ++ usesOf blk.term :=
    List.count_eq_zero.mp (by omega)
  simp only [List.mem_flatMap, List.mem_append, not_exists,
    not_and, not_or] at hnone
  refine ⟨?_, fun b blk hb =>
    (hnone blk ((mem_blocks_iff hblocks).mpr ⟨b, hb⟩)).2⟩
  rintro i ⟨b, blk, hb, hi⟩
  exact (hnone blk ((mem_blocks_iff hblocks).mpr ⟨b, hb⟩)).1 i hi

/-- The removals of stores and memory take memory that nobody reads any more. -/
theorem prunes {dead rs : List ValueId} (hdead : unreadMemory f = .ok dead)
    (hrs : (f.keepInstrs (keepsStore dead)).reads = .ok rs) :
    f.Prunes fun i => keepsAlloc rs i && keepsStore dead i := by
  have hmem {v : ValueId} : v ∈ rs
      ↔ (f.keepInstrs (keepsStore dead)).Reads v := by
    obtain ⟨bs, hblocks, rfl⟩ := reads_eq_ok hrs
    exact mem_reads_iff hblocks
  refine ⟨fun i hi hk => ?_, fun i d t hi hk ha u => ?_⟩
  · cases i with
    | frameAlloc d u => exact Or.inl ⟨d, u, rfl⟩
    | store address v t =>
        cases address with
        | value d =>
            have hd : d ∈ dead := by simpa [keepsStore, keepsAlloc] using hk
            refine Or.inr ⟨d, v, t, rfl, fun u => ?_⟩
            obtain ⟨hinstrs, hterms⟩ := unreadMemory_spec hdead hd
            -- with its stores gone the frame is not read at all
            have hunread : d ∉ rs := by
              rw [hmem]
              rintro ⟨b, blk, hb, hread⟩
              rw [block?_keepInstrs] at hb
              obtain ⟨blk', hb', rfl⟩ := Option.map_eq_some_iff.mp hb
              rcases hread with ⟨j, hj, hdj⟩ | hterm
              · obtain ⟨hj, hkj⟩ := List.mem_filter.mp hj
                rcases mem_uses_cases hdj with hother | ⟨v', t', rfl⟩
                · exact hinstrs j ⟨b, blk', hb', hj⟩ hother
                · simp [keepsStore, hd] at hkj
              · exact hterms b blk' hb' hterm
            simp [keepsStore, keepsAlloc, hunread]
        | _ => simp [keepsStore, keepsAlloc] at hk
    | _ => simp [keepsStore, keepsAlloc] at hk
  · rw [Bool.and_eq_true] at hk
    -- the access that is kept reads its address
    have hread : d ∈ rs := by
      rw [hmem]
      refine (hasInstr_keepInstrs.mpr ⟨hi, hk.2⟩).reads ?_
      cases i with
      | load e t' address =>
          cases ha
          exact List.mem_cons_self
      | store address v t' =>
          cases ha
          exact List.mem_cons_self
      | _ => cases ha
    simp [keepsStore, keepsAlloc, hread]

/-- Two filters in turn are their conjunction. -/
theorem keepInstrs_keepInstrs (f : Func) (keep keep' : Instr → Bool) :
    (f.keepInstrs keep').keepInstrs keep = f.keepInstrs fun i =>
    keep i && keep' i := by
  have hsame : (fun b : Block => { b with instrs := b.instrs.filter keep })
      ∘ (fun b : Block => { b with instrs := b.instrs.filter keep' })
      = fun b : Block =>
      { b with instrs := b.instrs.filter fun i => keep i && keep' i } := by
    funext b
    exact congrArg (fun is => { b with instrs := is }) List.filter_filter
  simp only [keepInstrs, mapBlocks, List.map_map, ← hsame]
  congr 2
  funext o
  cases o <;> rfl

/-- What the cleanup does, where it answers: it drops unread results, and then
memory that nobody reads. -/
theorem run_eq_ok {modified : Bool} {g : Func} (h : run f = .ok (modified, g)) :
    ∃ rs f₁ keep, f.reads = .ok rs ∧ f₁ = f.keepInstrs
      (keepsValue rs) ∧ f₁.Prunes keep
      ∧ g = f₁.keepInstrs keep := by
  obtain ⟨rs, hrs, h⟩ := bind_eq_ok.mp h
  obtain ⟨dead, hdead, h⟩ := bind_eq_ok.mp h
  obtain ⟨rs', hrs', h⟩ := bind_eq_ok.mp h
  cases h
  rw [given_eq_ok] at hrs hdead hrs'
  exact ⟨rs, _, _, hrs, rfl, prunes hdead hrs', keepInstrs_keepInstrs _ _ _⟩

/-- Dropping memory of one function that nobody reads keeps answers and
traces. -/
theorem prune_call_ok {m : Module} {i : Nat} (hf : m.func? i = some f)
    (hprivate : ∀ k g, m.func? k = some g → g.Private) {keep : Instr → Bool}
    (hprunes : f.Prunes keep) {name : String} {args : List Int64} {limit : Int}
    {r : List Int64} {t : Machine} (h : call m name args { limit } = .ok r t) :
    ∃ t', call (m.setFunc i (f.keepInstrs keep)) name args { limit } = .ok r t'
      ∧ t'.trace = t.trace := by
  let kept : FuncId → Instr → Bool :=
    fun k => if k = i then keep else fun _ => true
  have hself : kept i = keep := if_pos rfl
  have hother {k : FuncId} (hk : k ≠ i) : kept k = fun _ => true := if_neg hk
  have S : Refinement m (m.setFunc i (f.keepInstrs keep))
      (fun _ _ => True) Alike
      (TrackedIn m kept) := by
    refine prune_refinement (fun k g hg => ?_) hprivate fun k g hg => ?_
    · by_cases hk : k = i
      · subst hk
        rw [hf, Option.some.injEq] at hg
        rw [hself, hg]
        exact Module.func?_setFunc_self hf
      · rw [hother hk, keepInstrs_all, ← hg]
        exact Module.func?_setFunc_of_ne hk
    · by_cases hk : k = i
      · subst hk
        rw [hf, Option.some.injEq] at hg
        rw [hself, ← hg]
        exact hprunes
      · rw [hother hk]
        exact prunes_none g
  -- at the start nothing was handed out
  have hstart : Alike ⟨1, 1, fun _ => none⟩ (Machine.still { limit })
      (Machine.still { limit }) := by
    have hsound : ({} : Memory).Sound := by
      refine ⟨⟨by decide, le_refl _⟩, fun a _ => ?_⟩
      simp [Memory.get]
    refine ⟨rfl, hsound, hsound, rfl, rfl, Nat.one_pos, le_refl _, ?_, ?_⟩
    · intro a b h
      cases h
    · intro a₁ a₂ b h
      cases h
  have hlookup : (m.setFunc i (f.keepInstrs keep)).lookup name
      = m.lookup name :=
    Module.lookup_setFunc hf (sameHeader_keepInstrs f keep).name name
  obtain ⟨t', ω, w', hcall, hstill, hlike, -⟩ :=
    S.call_ok hlookup h (fun _ _ _ _ _ _ _ _ => trivial) hstart
  refine ⟨t', hcall, ?_⟩
  calc t'.trace = t'.still.trace := rfl
    _ = w'.trace := by rw [hstill]; rfl
    _ = t.still.trace := by rw [hlike]
    _ = t.trace := rfl

/-- Where addresses do not show, the cleanup keeps behaviour. On a valid
function it answers. Whatever a call of the module answered within a bound on
steps, it answers afterwards within the same bound and with the same trace. -/
theorem run_preserves_private_answers {m : Module} {i : Nat}
    (hf : m.func? i = some f)
    (hprivate : ∀ k g, m.func? k = some g → g.Private) :
    (f.validate = .ok () → ∃ modified g, run f = .ok (modified, g))
      ∧ ∀ modified g, run f = .ok (modified, g) → ∀ name args limit r t,
        call m name args { limit } = .ok r t →
        ∃ t', call (m.setFunc i g) name args { limit } = .ok r t'
            ∧ t'.trace = t.trace := by
  refine ⟨fun hvalid => ?_, fun modified g hrun name args limit r t hcall => ?_⟩
  · obtain ⟨modified, g, hg, -⟩ := run_spec (validate_eq_ok_iff.mp hvalid)
    exact ⟨modified, g, hg⟩
  obtain ⟨rs, f₁, keep, hrs, rfl, hprunes, rfl⟩ := run_eq_ok hrun
  have hmem (v : ValueId) : v ∈ rs ↔ f.Reads v := by
    obtain ⟨bs, hblocks, rfl⟩ := reads_eq_ok hrs
    exact mem_reads_iff hblocks
  have hquiet : ∀ i, f.HasInstr i → keepsValue rs i = false →
      i.isQuiet = true := by
    intro i _ hk
    cases i with
    | binary | unary | assign | load => rfl
    | _ => cases hk
  have hf₁ : (m.setFunc i (f.keepInstrs (keepsValue rs))).func? i
      = some (f.keepInstrs (keepsValue rs)) := Module.func?_setFunc_self hf
  -- first, results that nobody reads go
  have hvalues :=
    Preserves.of_replacement
      (keepInstrs_replacement (keepsValue_unread hmem) hquiet hf
    hf₁ fun j hj => Module.func?_setFunc_of_ne hj)
  have hlookup : (m.setFunc i (f.keepInstrs (keepsValue rs))).lookup name
      = m.lookup name :=
    Module.lookup_setFunc hf (sameHeader_keepInstrs f _).name name
  obtain ⟨t₁, hcall₁, -, htrace₁⟩ := hvalues.call_ok hlookup hcall
  -- then memory goes
  have hprivate₁ (k : FuncId) (g : Func)
      (hg : (m.setFunc i (f.keepInstrs (keepsValue rs))).func? k = some g) :
          g.Private := by
    by_cases hk : k = i
    · subst hk
      rw [hf₁, Option.some.injEq] at hg
      exact hg ▸ (hprivate _ f hf).keepInstrs fun _ _ => rfl
    · rw [Module.func?_setFunc_of_ne hk] at hg
      exact hprivate k g hg
  obtain ⟨t', hcall', htrace'⟩ := prune_call_ok hf₁ hprivate₁ hprunes hcall₁
  rw [Module.setFunc_setFunc] at hcall'
  exact ⟨t', hcall', htrace'.trans htrace₁⟩

/-- A function that writes its argument to memory nobody reads, then to memory
behind it, and reads it back from there. -/
def scratch : Func :=
  { name := "scratch"
    params := [0]
    returns := [.felt]
    nextValue := 5
    blocks :=
      [some { name := "entry", term := some (.ret [.value 3]),
              instrs := [.frameAlloc 1 .felt, .store (.value 1) (.value 0) .felt,
                         .frameAlloc 2 (.tuple [.felt, .felt]),
                           .store (.value 2) (.value 0) .felt,
                         .load 3 .felt (.value 2),
                           .binary .add 4 (.value 3) (.int 1),
                         .debug [] [.value 3]] }] }

/-- A function that writes to a place and never reads it. -/
theorem scratch_private : scratch.Private := by
  have hmem {i : Instr} (hi : scratch.HasInstr i) : i = .frameAlloc 1 .felt
      ∨ i = .store (.value 1) (.value 0) .felt
      ∨ i = .frameAlloc 2 (.tuple [.felt, .felt])
      ∨ i = .store (.value 2) (.value 0) .felt ∨ i = .load 3 .felt (.value 2)
      ∨ i = .binary .add 4 (.value 3) (.int 1) ∨ i = .debug [] [.value 3] := by
    obtain ⟨b, blk, hb, hi⟩ := hi
    obtain ⟨j, rfl, hj⟩ := block?_eq_some_iff.mp hb
    match j with
    | 0 =>
        cases hj
        simpa using hi
    | j + 1 => cases hj
  have hfelt : Ty.felt.Flat := .scalar rfl fun _ _ h => by cases h
  have hone : scratch.HasInstr (.frameAlloc 1 .felt) :=
    ⟨0, _, rfl, List.mem_cons_self⟩
  have htwo : scratch.HasInstr (.frameAlloc 2 (.tuple [.felt, .felt])) :=
    ⟨0, _, rfl,
    List.mem_cons_of_mem _ (List.mem_cons_of_mem _ List.mem_cons_self)⟩
  have hsmaller : ∀ n k, Ty.felt.size = some n →
      (Ty.tuple [.felt, .felt]).size = some k → n ≤ k := by
    rintro n k hn hk
    simp only [Ty.size, Ty.sizeOfList, Option.some.injEq] at hn hk
    cases hn
    cases hk
    decide
  have hequal : ∀ n k, Ty.felt.size = some n →
      Ty.felt.size = some k → n ≤ k := by
    rintro n k hn hk
    rw [hn, Option.some.injEq] at hk
    exact hk ▸ Int64.le_refl n
  refine ⟨definesOnce_iff.mp (by decide), ?_, ?_, ?_⟩
  · rintro i a t hi ha
    rcases hmem hi with rfl | rfl | rfl | rfl | rfl | rfl | rfl <;> cases ha
    · exact ⟨hfelt, 1, .felt, rfl, hone, hequal⟩
    · exact ⟨hfelt, 2, _, rfl, htwo, hsmaller⟩
    · exact ⟨hfelt, 2, _, rfl, htwo, hsmaller⟩
  · rintro d u hd
    -- the two frames of the function
    have hcases : d = 1 ∨ d = 2 := by
      rcases hmem hd with h | h | h | h | h | h | h <;> cases h
      · exact Or.inl rfl
      · exact Or.inr rfl
    refine ⟨fun i hi => ?_, fun b blk hb => ?_⟩
    · rcases hmem hi with rfl | rfl | rfl | rfl | rfl | rfl | rfl
        <;> rcases hcases with rfl | rfl <;>
        decide
    · obtain ⟨j, rfl, hj⟩ := block?_eq_some_iff.mp hb
      match j with
      | 0 =>
          cases hj
          rcases hcases with rfl | rfl <;> decide
      | j + 1 => cases hj
  · intro i hi
    rcases hmem hi with rfl | rfl | rfl | rfl | rfl | rfl | rfl <;> rfl

/-- The first memory goes with its store, the other one moves, and the answer
stays. -/
theorem run_preserves_private_answers_scratch :
    scratch.validate = .ok ()
    ∧ (∃ t, call ⟨[scratch]⟩ "scratch" [5] { limit := 8 } = .ok [5] t
      ∧ t.trace = [⟨[], [[5]]⟩])
    ∧ ∃ g, run scratch = .ok (true, g)
      ∧ g.blocks.map (·.map (·.instrs))
        = [some [.frameAlloc 2 (.tuple [.felt, .felt]),
        .store (.value 2) (.value 0) .felt, .load 3 .felt
          (.value 2), .debug [] [.value 3]]]
      ∧ ∃ t, call ⟨[g]⟩ "scratch" [5] { limit := 8 } = .ok [5] t
      ∧ t.trace = [⟨[], [[5]]⟩] := by
  have hprivate : ∀ k g, (⟨[scratch]⟩ : Module).func? k
      = some g → g.Private := by
    intro k g hg
    match k with
    | .ofNat 0 =>
        cases hg
        exact scratch_private
    | .ofNat (j + 1) => cases hg
    | .negSucc j => cases hg
  obtain ⟨hanswers, hkeeps⟩ :=
    run_preserves_private_answers (m := ⟨[scratch]⟩) (i := 0)
      (f := scratch) rfl hprivate
  obtain ⟨modified, g, hrun⟩ := hanswers rfl
  obtain ⟨g₀, hg₀, hblocks⟩ : ∃ g₀, run scratch = .ok (true, g₀)
      ∧ g₀.blocks.map (·.map (·.instrs))
        = [some [.frameAlloc 2 (.tuple [.felt, .felt]),
        .store (.value 2) (.value 0) .felt, .load 3 .felt (.value 2),
          .debug [] [.value 3]]] :=
    ⟨_, rfl, rfl⟩
  rw [hrun, Except.ok.injEq, Prod.mk.injEq] at hg₀
  obtain ⟨rfl, rfl⟩ := hg₀
  obtain ⟨t, ht, htrace⟩ :
      ∃ t, call ⟨[scratch]⟩ "scratch" [5] { limit := 8 } = .ok [5] t
      ∧ t.trace = [⟨[], [[5]]⟩] := ⟨_, rfl, rfl⟩
  obtain ⟨t', ht', htrace'⟩ := hkeeps _ _ hrun _ _ _ _ _ ht
  exact ⟨rfl, ⟨t, ht, htrace⟩, g, hrun, hblocks, t', ht', htrace'.trans htrace⟩

end FrameCleanup

end MirBackend
