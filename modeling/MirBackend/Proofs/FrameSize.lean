/-
When a function fits in a frame.

A value takes the room that its first definition asks for, and a frame is as
large as the values that are no parameters take together (`localsTotal`). The
layout of a function that was read compares that total with the largest frame
one value at a time, and so refuses exactly the functions of which the total, or
the total of parameters and results, is too large (`compute_bounds`). That is
for sizes of fewer than 2^63 slots (`Unwrapped`): the size of an array is a
product, and that of a tuple or struct a sum, of 64 bits, and one that wraps
looks small where it is compared.
-/
import MirBackend.Proofs.Source.Annotations
import MirBackend.Proofs.Spread

namespace MirBackend

namespace Layout

variable {f : Func} {l l' : Layout} {v d : ValueId} {i : Instr}

-- ============================================================= definitions

/-- The destinations of a function in the order of its blocks, each with its
instruction. -/
def definitions (f : Func) : List (Instr × ValueId) :=
  f.blocks.flatMap fun b => (b.elim [] Block.instrs).flatMap fun i =>
    i.dests.map (i, ·)

/-- What a function defines, with the instruction that does. -/
theorem mem_definitions {x : Instr × ValueId} :
    x ∈ definitions f ↔ f.HasInstr x.1 ∧ x.2 ∈ x.1.dests := by
  simp only [definitions, List.mem_flatMap, List.mem_map]
  constructor
  · rintro ⟨o, ho, i, hi, d, hd, rfl⟩
    obtain _ | blk := o
    · cases hi
    obtain ⟨k, hk⟩ := List.mem_iff_getElem?.mp ho
    exact ⟨⟨k, blk, Func.block?_eq_some_iff.mpr ⟨k, rfl, hk⟩, hi⟩, hd⟩
  · rintro ⟨⟨b, blk, hb, hi⟩, hd⟩
    obtain ⟨k, -, hk⟩ := Func.block?_eq_some_iff.mp hb
    exact ⟨some blk, List.mem_of_getElem? hk, x.1, hi, x.2, hd, rfl⟩

/-- The values that some definitions define, without the parameters. -/
def localsOf (f : Func) (xs : List (Instr × ValueId)) : Finset ValueId :=
  (xs.map Prod.snd).toFinset \ f.params.toFinset

/-- The exact room of a value: what its first definition asks for. -/
def roomOf (f : Func) (v : ValueId) : Int :=
  ((definitions f).find? (·.2 == v)).elim 0 fun x => (destExtent f v x.1).getD 0

/-- The exact room of all values but the parameters. -/
def localsTotal (f : Func) : Int := ∑ v ∈ localsOf f (definitions f), roomOf f v

/-- The exact room of parameters and results. -/
def signatureTotal (f : Func) : Nat :=
  widthOf f f.params + Ty.widthOfList f.returns

/-- No size wraps: each of them is a count of 64 bits. -/
structure Unwrapped (f : Func) : Prop where
  signature : signatureTotal f < 2 ^ 63
  room : ∀ v ∈ localsOf f (definitions f), roomOf f v < 2 ^ 63

/-- The locals are what is defined and is no parameter. -/
theorem mem_localsOf {xs : List (Instr × ValueId)} :
    v ∈ localsOf f xs ↔ v ∈ xs.map Prod.snd ∧ v ∉ f.params := by
  rw [localsOf, Finset.mem_sdiff, List.mem_toFinset, List.mem_toFinset]

/-- A test of all sizes that can be run. -/
def isUnwrapped (f : Func) : Bool :=
  decide (signatureTotal f < 2 ^ 63)
    && ((definitions f).map Prod.snd).all fun v =>
    decide (v ∈ f.params) || decide (roomOf f v < 2 ^ 63)

/-- Whether a size has wrapped is decided type by type. -/
theorem isUnwrapped_iff : isUnwrapped f = true ↔ Unwrapped f := by
  simp only [isUnwrapped, Bool.and_eq_true, Bool.or_eq_true,
    decide_eq_true_eq, List.all_eq_true]
  constructor
  · rintro ⟨hsig, hroom⟩
    refine ⟨hsig, fun v hv => ?_⟩
    obtain ⟨hmem, hlocal⟩ := mem_localsOf.mp hv
    exact (hroom v hmem).resolve_left hlocal
  · rintro ⟨hsig, hroom⟩
    refine ⟨hsig, fun v hv => ?_⟩
    by_cases hlocal : v ∈ f.params
    · exact .inl hlocal
    · exact .inr (hroom v (mem_localsOf.mpr ⟨hv, hlocal⟩))

/-- More definitions have more locals. -/
theorem localsOf_subset {xs ys : List (Instr × ValueId)} (h : xs ⊆ ys) :
    localsOf f xs ⊆ localsOf f ys := by
  intro v hv
  obtain ⟨hmem, hlocal⟩ := mem_localsOf.mp hv
  exact mem_localsOf.mpr ⟨List.map_subset _ h hmem, hlocal⟩

/-- A value that has its place already adds nothing. -/
theorem localsOf_append_old {xs : List (Instr × ValueId)}
    (h : d ∈ f.params ∨ d ∈ xs.map Prod.snd) :
    localsOf f (xs ++ [(i, d)]) = localsOf f xs := by
  ext v
  simp only [mem_localsOf, List.map_append, List.mem_append,
    List.map_cons, List.map_nil, List.mem_singleton]
  constructor
  · rintro ⟨hv | rfl, hlocal⟩
    · exact ⟨hv, hlocal⟩
    · exact ⟨h.resolve_left hlocal, hlocal⟩
  · rintro ⟨hv, hlocal⟩
    exact ⟨.inl hv, hlocal⟩

/-- A definition adds its value. -/
theorem localsOf_append_new {xs : List (Instr × ValueId)} (h : d ∉ f.params) :
    localsOf f (xs ++ [(i, d)]) = insert d (localsOf f xs) := by
  ext v
  simp only [Finset.mem_insert, mem_localsOf, List.map_append,
    List.mem_append, List.map_cons, List.map_nil, List.mem_singleton]
  constructor
  · rintro ⟨hv | rfl, hlocal⟩
    · exact .inr ⟨hv, hlocal⟩
    · exact .inl rfl
  · rintro (rfl | ⟨hv, hlocal⟩)
    · exact ⟨.inr rfl, h⟩
    · exact ⟨.inl hv, hlocal⟩

/-- The first definition of a value is the one that counts. -/
theorem roomOf_first {xs ys : List (Instr × ValueId)}
    (h : definitions f = xs ++ (i, d) :: ys) (hnew : d ∉ xs.map Prod.snd) :
    roomOf f d = (destExtent f d i).getD 0 := by
  have hnone : xs.find? (·.2 == d) = none := by
    rw [List.find?_eq_none]
    intro x hx hxd
    exact hnew (List.mem_map.mpr ⟨x, hx, by simpa using hxd⟩)
  rw [roomOf, h, List.find?_append, hnone, List.find?_cons_of_pos (by simp)]
  rfl

-- ===================================================================== sizes

/-- A destination of a function that was read asks for a number of slots. -/
theorem destSlots_annotated (h : Source.Annotated f) (hi : f.HasInstr i)
    (hd : d ∈ i.dests) :
    ∃ n : Nat, destExtent f d i = some (n : Int)
        ∧ destSlots f i d = .ok (Int64.ofNat n) := by
  have htyped := h.instr i hi
  by_cases halloc : ∃ r t, i = .frameAlloc r t
  · obtain ⟨r, t, rfl⟩ := halloc
    have hformed := htyped.alloc r t rfl
    obtain ⟨n, hn⟩ := hformed.exists_extent
    refine ⟨n, hn, ?_⟩
    rw [destSlots, hformed.written.present, Ty.size_eq_extent, hn]
    rfl
  · have hne : ∀ r t, i ≠ .frameAlloc r t := fun r t hi => halloc ⟨r, t, hi⟩
    refine ⟨(f.typeOf d).width, destExtent.eq_2 f d i hne, ?_⟩
    obtain ⟨t, ht⟩ := Option.isSome_iff_exists.mp
      (Std.ExtTreeMap.mem_iff_isSome_getElem?.mp (htyped.dest d hd))
    have htype : f.typeOf d = t := by
      rw [Func.typeOf, Std.ExtTreeMap.getD_eq_getD_getElem?,
        ht, Option.getD_some]
    rw [destSlots.eq_2 f i d hne, ht, htype, ← Ty.slots_eq_ofNat]
    dsimp only
    rw [(h.formed d t ht).written.present]
    rfl

/-- A local of a type the reader answers takes no negative room. -/
theorem roomOf_nonneg (h : Source.Annotated f) (v : ValueId) :
    0 ≤ roomOf f v := by
  rw [roomOf]
  cases hfind : (definitions f).find? (·.2 == v) with
  | none => exact le_rfl
  | some x =>
      obtain ⟨hi, hd⟩ := mem_definitions.mp (List.mem_of_find?_eq_some hfind)
      have hv : x.2 = v := by simpa using List.find?_some hfind
      obtain ⟨n, hn, -⟩ := destSlots_annotated h hi hd
      rw [hv] at hn
      rw [Option.elim_some, hn]
      exact Int.natCast_nonneg n

/-- The parameters are counted when all of them have types. -/
theorem paramSlotsOf_annotated (h : Source.Annotated f) :
    paramSlotsOf f = .ok (Int64.ofNat (widthOf f f.params)) := by
  have hok : ∃ n, paramSlotsOf f = .ok n ∧ True := by
    refine foldlM_invariant (P := fun _ => True) (fun n _ p hp => ?_) trivial
    obtain ⟨t, ht⟩ := Option.isSome_iff_exists.mp
      (Std.ExtTreeMap.mem_iff_isSome_getElem?.mp (h.param p hp))
    exact ⟨n + t.slots, by rw [ht], trivial⟩
  obtain ⟨n, hn, -⟩ := hok
  rw [hn, paramSlotsOf_eq hn]

-- ====================================================================== loop

/-- Folding over the parts of a list is folding over their parts in turn. -/
theorem foldlM_flatMap {ε σ α β : Type} (step : σ → β → Except ε σ)
    (g : α → List β) (as : List α) (s : σ) :
    (as.flatMap g).foldlM step s = as.foldlM
    (fun s a => (g a).foldlM step s) s := by
  induction as generalizing s with
  | nil => rfl
  | cons a as ih =>
      rw [List.flatMap_cons, List.foldlM_append, List.foldlM_cons]
      exact congrArg _ (funext ih)

/-- Steps that agree on the members of a list make the same loop. -/
theorem foldlM_congr_of_mem {ε σ α : Type}
    {g k : σ → α → Except ε σ} {as : List α} (h : ∀ a ∈ as, ∀ s, g s a = k s a)
    (s : σ) : as.foldlM g s = as.foldlM k s := by
  induction as generalizing s with
  | nil => rfl
  | cons a as ih =>
      rw [List.foldlM_cons, List.foldlM_cons, h a List.mem_cons_self]
      exact congrArg _ (funext fun s =>
        ih (fun b hb => h b (List.mem_cons_of_mem _ hb)) s)

/-- A block without holes is laid out destination by destination. -/
theorem placeBlock_some {b : Block}
    (h : ∀ i ∈ b.instrs, i ≠ .missing) (l : Layout) : placeBlock f l (some b)
      = b.instrs.foldlM (fun l i => i.dests.foldlM (placeDest f i) l) l := by
  refine foldlM_congr_of_mem (fun i hi l => ?_) l
  have hpresent : i.present = .ok i := by
    unfold Instr.present
    split
    · exact absurd rfl (h _ hi)
    · rfl
  rw [hpresent, liftChecked_ok, ok_bind]

/-- Blocks are laid out definition by definition. -/
theorem foldlM_placeBlock (h : Source.Annotated f) (l : Layout) :
    f.blocks.foldlM (placeBlock f) l
      = (definitions f).foldlM (fun l x => placeDest f x.1 l x.2) l := by
  rw [definitions, foldlM_flatMap]
  refine foldlM_congr_of_mem (fun o ho l => ?_) l
  obtain ⟨b, rfl⟩ := Option.isSome_iff_exists.mp (h.full o ho)
  obtain ⟨k, hk⟩ := List.mem_iff_getElem?.mp ho
  rw [placeBlock_some fun i hi =>
    (h.instr i ⟨k, b, Func.block?_eq_some_iff.mpr ⟨k, rfl, hk⟩, hi⟩).present]
  rw [Option.elim_some, foldlM_flatMap]
  exact foldlM_congr_of_mem (fun i _ l => by rw [List.foldlM_map]) l

/-- What a layout has after some definitions: places for them and for the
parameters, and the exact room of all but the parameters. -/
structure Tally (f : Func) (xs : List (Instr × ValueId))
    (l : Layout) : Prop where
  placed : ∀ v, v ∈ l.spans ↔ v ∈ f.params ∨ v ∈ xs.map Prod.snd
  size : l.frameSize.toInt = ∑ v ∈ localsOf f xs, roomOf f v
  fits : l.frameSize.toInt ≤ maxFrame.toInt

/-- A layout that is refused: the frame is too large for the reason that the
total is. -/
def Refused (f : Func) (x : Except (Stop LayoutError) Layout) : Prop :=
  ∃ e, x = .error (.fail e) ∧ e.isOverflow = true
    ∧ maxFrame.toInt < localsTotal f

/-- One more definition finds its place, or the total is too large. -/
theorem Tally.step (h : Source.Annotated f) (hf : Unwrapped f)
    {xs ys : List (Instr × ValueId)} (hxs : definitions f = xs ++ (i, d) :: ys)
    (hl : Tally f xs l) :
    (∃ l', placeDest f i l d = .ok l' ∧ Tally f (xs ++ [(i, d)]) l')
      ∨ Refused f (placeDest f i l d) := by
  by_cases hin : d ∈ l.spans
  · -- the value has its place
    have hold := (hl.placed d).mp hin
    refine .inl ⟨l, ?_, fun v => ?_, ?_, hl.fits⟩
    · rw [placeDest, if_pos (Std.ExtTreeMap.contains_iff_mem.mpr hin)]
    · rw [hl.placed v, List.map_append, List.mem_append, List.map_singleton,
        List.mem_singleton]
      constructor
      · rintro (hv | hv)
        · exact .inl hv
        · exact .inr (.inl hv)
      · rintro (hv | hv | rfl)
        · exact .inl hv
        · exact .inr hv
        · exact hold
    · rw [hl.size, localsOf_append_old hold]
  -- a value met for the first time takes room behind the frame
  · have hnew : d ∉ f.params ∧ d ∉ xs.map Prod.snd := by
      rw [hl.placed d, not_or] at hin
      exact hin
    have hmem : (i, d) ∈ definitions f := by rw [hxs]; simp
    obtain ⟨hi, hd⟩ := mem_definitions.mp hmem
    obtain ⟨n, hextent, hslots⟩ := destSlots_annotated h hi hd
    have hroom : roomOf f d = n := by
      rw [roomOf_first hxs hnew.2, hextent, Option.getD_some]
    have hlocal : d ∈ localsOf f (definitions f) :=
      mem_localsOf.mpr ⟨List.mem_map.mpr ⟨_, hmem, rfl⟩, hnew.1⟩
    have hn : (Int64.ofNat n).toInt = n := by
      have := hf.room d hlocal
      exact Int64.toInt_ofNat_of_lt (by omega)
    have hsum : ∑ v ∈ localsOf f (xs ++ [(i, d)]),
        roomOf f v = n + l.frameSize.toInt := by
      rw [localsOf_append_new hnew.1, Finset.sum_insert, hroom, hl.size]
      exact fun hd => hnew.2 (mem_localsOf.mp hd).1
    have hnonneg : 0 ≤ l.frameSize.toInt := by
      rw [hl.size]
      exact Finset.sum_nonneg fun v _ => roomOf_nonneg h v
    have hmax : maxFrame.toInt = 16777216 := rfl
    have hfits := hl.fits
    have hsub : (maxFrame - l.frameSize).toInt
        = 16777216 - l.frameSize.toInt := by
      rw [Int64.toInt_sub, hmax]
      exact Int.bmod_eq_of_le (by omega) (by omega)
    -- the test of the program, as one about the sum: the difference does not
    -- wrap, as the frame fits so far
    have hcheck : Int64.ofNat n > maxFrame - l.frameSize
        ↔ 16777216 < n + l.frameSize.toInt := by
      rw [gt_iff_lt, Int64.lt_iff_toInt_lt, hsub, hn]
      omega
    have hplace : placeDest f i l d = if Int64.ofNat n > maxFrame - l.frameSize
        then .error (.fail (.valueOverflow d (Int64.ofNat n) l.frameSize))
        else .ok { l.place d ⟨l.frameSize.toInt32, Int64.ofNat n⟩ with
          frameSize := l.frameSize + Int64.ofNat n } := by
      rw [placeDest,
        if_neg (fun hc => hin (Std.ExtTreeMap.contains_iff_mem.mp hc)), hslots]
      dsimp only [ok_bind]
      split <;> rfl
    rw [hplace]
    by_cases hlarge : 16777216 < n + l.frameSize.toInt
    · -- the total is no less than what is placed and this value together
      have hle : ∑ v ∈ localsOf f (xs ++ [(i, d)]),
          roomOf f v ≤ localsTotal f :=
        Finset.sum_le_sum_of_subset_of_nonneg
          (localsOf_subset (by rw [hxs]; simp))
          fun v _ _ => roomOf_nonneg h v
      rw [if_pos (hcheck.mpr hlarge)]
      exact .inr ⟨_, rfl, rfl, by omega⟩
    · rw [if_neg (fun hc => hlarge (hcheck.mp hc))]
      have htoInt : (l.frameSize + Int64.ofNat n).toInt
          = l.frameSize.toInt + n := by
        rw [toInt_add_of_le hnonneg (by omega) (by omega), hn]
      refine .inl ⟨_, rfl, fun v => ?_, ?_, ?_⟩
      · show v ∈ (l.place d _).spans ↔ _
        rw [place, Std.ExtTreeMap.mem_insert, Std.compare_eq_iff_eq,
          hl.placed v, List.map_append,
          List.mem_append, List.map_singleton, List.mem_singleton]
        constructor
        · rintro (rfl | hv | hv)
          · exact .inr (.inr rfl)
          · exact .inl hv
          · exact .inr (.inl hv)
        · rintro (hv | hv | rfl)
          · exact .inr (.inl hv)
          · exact .inr (.inr hv)
          · exact .inl rfl
      · show (l.frameSize + Int64.ofNat n).toInt = _
        omega
      · show (l.frameSize + Int64.ofNat n).toInt ≤ _
        omega

/-- The definitions that are left find their places, or the total is too
large. -/
theorem Tally.run (h : Source.Annotated f) (hf : Unwrapped f)
    {xs ys : List (Instr × ValueId)} (hxs : definitions f = xs ++ ys)
    (hl : Tally f xs l) :
    (∃ l', ys.foldlM (fun l x => placeDest f x.1 l x.2) l = .ok l'
      ∧ Tally f (definitions f) l')
      ∨ Refused f (ys.foldlM (fun l x => placeDest f x.1 l x.2) l) := by
  induction ys generalizing xs l with
  | nil => exact .inl ⟨l, rfl, by rwa [hxs, List.append_nil]⟩
  | cons x ys ih =>
      rw [List.foldlM_cons]
      obtain ⟨l₁, hl₁, htally⟩ | ⟨e, he, hrefused⟩ := hl.step h hf hxs
      · rw [hl₁, ok_bind]
        exact ih (by rw [hxs, List.append_assoc]; rfl) htally
      · refine .inr ⟨e, ?_, hrefused⟩
        rw [he]
        rfl

/-- Once the parameters are laid out, nothing else is. -/
theorem placeParams_tally (off : Int32) (hspans : l.spans = ∅)
    (hsize : l.frameSize = 0) : Tally f [] (placeParams f off f.params l) := by
  obtain ⟨⟨spans, order, hsame⟩, hother, hthese⟩ :=
    placeParams_spec f f.params off l
  have hframe : (placeParams f off f.params l).frameSize.toInt = 0 := by
    rw [hsame]
    show l.frameSize.toInt = 0
    rw [hsize]
    rfl
  refine ⟨fun v => ?_, ?_, ?_⟩
  · rw [Std.ExtTreeMap.mem_iff_isSome_getElem?]
    by_cases hv : v ∈ f.params
    · obtain ⟨i, hi, hlast⟩ := exists_last hv
      rw [hthese i v hi hlast]
      simp [hv]
    · rw [hother v hv, hspans]
      simp [hv]
  · rw [hframe]
    simp [localsOf]
  · rw [hframe]
    decide

-- ====================================================================== frame

/-- A function that was read is laid out when its parameters and results fit,
and then its definitions are what can still be refused. -/
theorem compute_annotated (h : Source.Annotated f) (hf : Unwrapped f) :
    (maxFrame.toInt < signatureTotal f ∧ ∃ e, compute f = .error (.fail e)
      ∧ e.isOverflow = true)
      ∨ signatureTotal f ≤ maxFrame.toInt
        ∧ ((∃ l, compute f = .ok l ∧ Tally f (definitions f) l)
          ∨ Refused f (compute f)) := by
  have hcompute : compute f = (do
      if Int64.ofNat (signatureTotal f) > maxFrame then
        throw (.fail (.signatureOverflow (Int64.ofNat (widthOf f f.params))
          (Int64.ofNat (Ty.widthOfList f.returns))))
      f.blocks.foldlM (placeBlock f)
        (placeParams f (-(Int64.ofNat (widthOf f f.params)).toInt32
        - (Int64.ofNat (Ty.widthOfList f.returns)).toInt32
          - callerSlots) f.params
        { name := f.name, params := f.params.length
          paramSlots := Int64.ofNat (widthOf f f.params),
            returns := f.returns.length
          returnSlots := Int64.ofNat (Ty.widthOfList f.returns) })) := by
    rw [compute, paramSlotsOf_annotated h, ok_bind,
      Ty.slotsOfList_eq_ofNat, signatureTotal, Int64.ofNat_add]
  have hcheck : Int64.ofNat (signatureTotal f) > maxFrame
      ↔ maxFrame.toInt < signatureTotal f := by
    rw [gt_iff_lt, Int64.lt_iff_toInt_lt, Int64.toInt_ofNat_of_lt hf.signature]
  rw [hcompute]
  by_cases hlarge : maxFrame.toInt < signatureTotal f
  · rw [if_pos (hcheck.mpr hlarge)]
    exact .inl ⟨hlarge, _, rfl, rfl⟩
  · rw [if_neg (fun hc => hlarge (hcheck.mp hc))]
    refine .inr ⟨not_lt.mp hlarge, ?_⟩
    dsimp only
    rw [foldlM_placeBlock h]
    exact (placeParams_tally _ rfl rfl).run h hf (List.nil_append _).symm

/-- A function that a text defines, of which no size wraps, is laid out exactly
when its locals and its signature each fit in a frame. The frame is then as
large as the locals, and in every other case the frame is what is too large. -/
theorem compute_bounds {input : List UInt8} {m : Module}
    (hm : Source.readModule input = .ok m) (hmem : f ∈ m.functions)
    (hf : Unwrapped f) : ((∃ l, compute f = .ok l)
        ↔ localsTotal f ≤ maxFrame.toInt
        ∧ (signatureTotal f : Int) ≤ maxFrame.toInt)
      ∧ (∀ l, compute f = .ok l → l.frameSize.toInt = localsTotal f)
      ∧ ∀ s, compute f = .error s → ∃ e, s = .fail e ∧ e.isOverflow = true := by
  have h := Source.readModule_annotated hm f hmem
  obtain ⟨hlarge, e, he, hover⟩
      | ⟨hfits, ⟨l, hl, htally⟩ | ⟨e, he, hover, hlarge⟩⟩ :=
    compute_annotated h hf
  · rw [he]
    refine ⟨⟨nofun, fun hsmall => absurd hsmall.2 (not_le.mpr hlarge)⟩,
      nofun, fun s hs => ?_⟩
    cases hs
    exact ⟨e, rfl, hover⟩
  · rw [hl]
    have htotal : l.frameSize.toInt = localsTotal f := htally.size
    refine ⟨⟨fun _ => ⟨htotal ▸ htally.fits, hfits⟩, fun _ => ⟨l, rfl⟩⟩,
      fun l' hl' => ?_, nofun⟩
    cases hl'
    exact htotal
  · rw [he]
    refine ⟨⟨nofun, fun hsmall => absurd hsmall.1 (not_le.mpr hlarge)⟩,
      nofun, fun s hs => ?_⟩
    cases hs
    exact ⟨e, rfl, hover⟩

/-- A parameter of two slots, an array that is allocated, a value that is
defined twice. -/
def roomyText : List UInt8 := Text.bytesOf
  "fn f(%0: felt, %1: u32) -> (felt) \x7b bb0: %2: *[(felt, u32); 5] = framealloc %3: u32 = assign %1 %3: felt = assign %0 return %0 \x7d"

/-- A function read from its text with sixteen words of locals. -/
theorem compute_bounds_roomy : ∃ m f, Source.readModule roomyText
    = .ok m ∧ f ∈ m.functions
    ∧ Unwrapped f ∧ localsTotal f = 16
    ∧ ((∃ l, compute f = .ok l)
        ↔ localsTotal f ≤ maxFrame.toInt
        ∧ (signatureTotal f : Int) ≤ maxFrame.toInt)
    ∧ (∀ l, compute f = .ok l → l.frameSize.toInt = localsTotal f)
    ∧ ∀ s, compute f = .error s → ∃ e, s = .fail e ∧ e.isOverflow = true := by
  have hread : ((Source.readModule roomyText).toOption.any fun m =>
      m.functions.any fun f => isUnwrapped f && decide (localsTotal f = 16))
        = true := by
    decide +kernel
  cases hm : Source.readModule roomyText with
  | error e =>
      rw [hm] at hread
      cases hread
  | ok m =>
      rw [hm, Except.toOption, Option.any_some, List.any_eq_true] at hread
      obtain ⟨f, hmem, hf⟩ := hread
      rw [Bool.and_eq_true, isUnwrapped_iff, decide_eq_true_eq] at hf
      obtain ⟨hf, htotal⟩ := hf
      exact ⟨m, f, rfl, hmem, hf, htotal, compute_bounds hm hmem hf⟩

/-- An array of 2^32 arrays of 2^32 words. -/
def vastText : List UInt8 := Text.bytesOf
  "fn f() -> () \x7b bb0: %0: *[[felt; 4294967296]; 4294967296] = framealloc return \x7d"

/-- A size that wraps is not noticed: a frame of no slots is given to 2^64
words. -/
theorem compute_vast : ∃ m f, Source.readModule vastText
    = .ok m ∧ f ∈ m.functions
    ∧ localsTotal f = 2 ^ 64 ∧ ∃ l, compute f = .ok l ∧ l.frameSize = 0 := by
  have hread : ((Source.readModule vastText).toOption.any fun m =>
    m.functions.any fun f =>
      decide (localsTotal f = 2 ^ 64)
        && (compute f).toOption.any (·.frameSize == 0)) = true := by
    decide +kernel
  cases hm : Source.readModule vastText with
  | error e =>
      rw [hm] at hread
      cases hread
  | ok m =>
      rw [hm, Except.toOption, Option.any_some, List.any_eq_true] at hread
      obtain ⟨f, hmem, hf⟩ := hread
      rw [Bool.and_eq_true] at hf
      refine ⟨m, f, rfl, hmem, of_decide_eq_true hf.1, ?_⟩
      cases hl : compute f with
      | error e =>
          rw [hl] at hf
          cases hf.2
      | ok l =>
          rw [hl] at hf
          exact ⟨l, rfl, eq_of_beq hf.2⟩

end Layout

end MirBackend
