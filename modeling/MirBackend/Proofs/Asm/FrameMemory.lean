/-
The frame as memory.

The interpreter hands out new memory whenever it makes an address of a place in
the frame: for an allocation, or for a copy of a value. The frame has one row of
slots for it, whatever round of a loop it is: those of the allocation, or those
of the value itself, which it lends. They agree (`Agrees`) as far as addresses
are *live*: the last address that was made of a place is the one that can still
be used, what was derived from it points into the same memory at the same
distance, and the words written there since are in the slots of the place. What
was derived from an earlier address is not live, and nothing is said about words
never written. A value is in its slots unless it has lent them to an address
that is live; then it may be read only while the words at the address are still
its own (`Current`).

Each kind of instruction keeps this. A definition leaves the slots of places
with live addresses alone, a store changes the words of one place and its slots
alike, a step from an address changes nothing, and a place whose address is made
again begins with new memory: no words written at all, or those of the value.
-/
import Mathlib
import MirBackend.Proofs.Asm.LentValues
import MirBackend.Proofs.Asm.Selection
import MirBackend.Proofs.Interp.Injection
import MirBackend.Proofs.Interp.Instr

namespace MirBackend.Asm

open Interp

variable {x : Scope} {L : Layout} {n : Nat} {live : ValueId → Prop} {fr : Frame}
  {mem : Memory} {σ σ' : FrameSlots} {d h r u v : ValueId} {y : Value}
  {s s' : Span} {a : Nat} {xs : Slots} {e : Int} {i : Instr}

-- ==================================================================== places

/-- The slots of the place that an instruction makes an address of. -/
def roomOf? (f : Func) : Instr → Option Int64
  | .frameAlloc _ t => t.size
  | .addressOf _ v => some (f.typeOf v).slots
  | _ => none

/-- A function in its layout: the addresses known are those of its places and
what is derived from them, values lend their slots once at a time, and a place
has its slots. -/
structure Scope.Framed (x : Scope) (L : Layout) : Prop where
  laid : x.Laid L
  fixed : Fixed x.func
  lends : LendsOnce x.func
  known : ∀ v, v ∈ x.static ↔ FrameAddress x.func v
  explained : Explained x.func L x.static
  room : ∀ i r h s, x.func.HasInstr i → homeOf? i = some (r, h) →
    L.spans[h]? = some s →
    roomOf? x.func i = some s.len

/-- The words of memory from an address on that were written are in the slots of
a span. -/
structure Houses (mem : Memory) (σ : FrameSlots) (s : Span)
    (a : Nat) : Prop where
  pos : 0 < a
  within : a + s.len.toInt.toNat ≤ mem.size
  shown : ∀ (i : Nat) y, (i : Int) < s.len.toInt → mem.words[a + i]? = some y →
    ∃ e : Felt, e.Canonical ∧ e.toInt64 = y
      ∧ σ (s.base + Int32.ofNat i) = some e

/-- Values, addresses and memory of the interpreter as the frame has them, as
far as addresses are live; `place` is where the memory for an address was last
handed out. -/
structure Agrees (x : Scope) (L : Layout) (live : ValueId → Prop)
    (place : ValueId → Nat) (fr : Frame) (mem : Memory)
    (σ : FrameSlots) : Prop where
  values : ∀ v y, v ∉ x.static → fr[v]? = some y → ∃ s, L.spans[v]? = some s
    ∧ (y.slots.length : Int) = s.len.toInt
    ∧ ((∀ r, Home x.func r v → ¬ live r) → Shows σ s.base y.slots)
  address : ∀ r h v k, Home x.func r h → Derived x.func r v k → live v →
    lookScalar fr (.value v) = some (Int64.ofNat (place r) + k)
  room : ∀ r h s, Home x.func r h → live r → L.spans[h]? = some s →
    Houses mem σ s (place r)
  whole : ∀ r h s, x.func.HasInstr (.addressOf r h) → live r →
    L.spans[h]? = some s →
    ∀ i : Nat, (i : Int) < s.len.toInt → place r + i ∈ mem.words
  single : ∀ r r' h, Home x.func r h → Home x.func r' h →
    live r → live r' → r = r'
  apart : ∀ r r' h h' s s', Home x.func r h → Home x.func r' h' → r ≠ r' →
    live r → live r' →
    L.spans[h]? = some s → L.spans[h']? = some s' →
    place r + s.len.toInt.toNat ≤ place r'
      ∨ place r' + s'.len.toInt.toNat ≤ place r
  fresh : ∀ a, mem.size ≤ a → mem.words[a]? = none
  pos : 0 < mem.size
  bounded : mem.Bounded
  link : σ (-1) = some (.ofWord stopPc) ∧ σ (-2) = some (.ofWord 0)

-- ============================================================ frame lemmas

/-- The link to the caller is no slot of a value. -/
theorem Scope.Framed.link_free (hx : x.Framed L) :
    ¬ L.Taken (-1) ∧ ¬ L.Taken (-2) := by
  have hnot (off : Int32) (hoff : off.toInt = -1 ∨ off.toInt = -2) :
      ¬ L.Taken off := by
    rintro ⟨v, s, i, hs, hi, rfl⟩
    obtain ⟨hplace, hin⟩ := hx.laid.slot_place hs hi
    rw [Layout.resultsAt] at hin
    omega
  exact ⟨hnot _ (Or.inl rfl), hnot _ (Or.inr rfl)⟩

/-- The link to the caller stays when only slots of values get something. -/
theorem Scope.Framed.link_kept (hx : x.Framed L) {dst : Int32}
    (hputs : Puts n e dst xs σ σ')
    (htaken : ∀ i < xs.length, L.Taken (dst + Int32.ofNat i))
    (hlink : σ (-1) = some (.ofWord stopPc) ∧ σ (-2) = some (.ofWord 0)) :
    σ' (-1) = some (.ofWord stopPc) ∧ σ' (-2) = some (.ofWord 0) := by
  have hkept (off : Int32) (hoff : off.toInt < n) (hfree : ¬ L.Taken off) :
      σ' off = σ off :=
    hputs.other off (.inl hoff) fun i hi heq => hfree (heq ▸ htaken i hi)
  obtain ⟨hone, htwo⟩ := hx.link_free
  rw [hkept (-1) (by show (-1 : Int) < n; omega) hone,
    hkept (-2) (by show (-2 : Int) < n; omega) htwo]
  exact hlink

/-- A place keeps its words if the frame keeps those slots. -/
theorem Houses.keep (h : Houses mem σ s a)
    (hsame : ∀ i : Nat, (i : Int) < s.len.toInt →
      σ' (s.base + Int32.ofNat i) = σ (s.base + Int32.ofNat i)) :
        Houses mem σ' s a := by
  refine ⟨h.pos, h.within, fun i y hi hy => ?_⟩
  rw [hsame i hi]
  exact h.shown i y hi hy

/-- Memory that was handed out anew houses the words that are written there. -/
theorem Houses.handed {mem' : Memory} (hpos : 0 < mem.size)
    (hfresh : ∀ a, mem.size ≤ a → mem.words[a]? = none)
    (hwords : mem'.words = mem.words)
    (hsize : mem'.size = mem.size + s.len.toInt.toNat)
    (hshows : Shows σ s.base xs) :
    Houses (mem'.write mem.size xs) σ s mem.size := by
  refine ⟨hpos, by rw [Memory.size_write, hsize], fun i z hi hz => ?_⟩
  by_cases hix : i < xs.length
  · rw [Memory.words_write_of_inside hix] at hz
    exact hshows i z hz
  · rw [Memory.words_write_of_outside (by omega), hwords,
      hfresh _ (Nat.le_add_right _ _)] at hz
    cases hz

/-- What is written to memory that was handed out anew changes no words from
before. -/
theorem Houses.grow {mem' : Memory} (h : Houses mem σ s a)
    (hwords : mem'.words = mem.words) (hsize : mem.size ≤ mem'.size) :
    Houses (mem'.write mem.size xs) σ s a := by
  have hwithin := h.within
  refine ⟨h.pos, by rw [Memory.size_write]; omega, fun i z hi hz => ?_⟩
  rw [Memory.words_write_of_outside (by omega), hwords] at hz
  exact h.shown i z hi hz

/-- Another operand gives what it gave. -/
theorem lookScalar_insert_of_ne {o : Operand} (h : o ≠ .value d) :
    lookScalar (fr.insert d y) o = lookScalar fr o := by
  rw [lookScalar, look_insert_of_ne h, lookScalar]

/-- The value that was just defined gives its word. -/
theorem lookScalar_insert_self {c : Int64} (h : y.slots = [c]) :
    lookScalar (fr.insert d y) (.value d) = some c :=
  lookScalar_eq_some.mpr ⟨y, look_insert_self fr d y, h⟩

variable {place : ValueId → Nat}

namespace Agrees

-- ================================================================ changes

/-- A value that is no known address gets its slots. -/
theorem define (hA : Agrees x L live place fr mem σ) (hx : x.Framed L)
    (hn : L.frameSize.toInt ≤ n) (hd : d ∉ x.static) (hs : L.spans[d]? = some s)
    (hlen : (y.slots.length : Int) = s.len.toInt)
    (hputs : Puts n e s.base y.slots σ σ') :
    Agrees x L (Reclaimed x.func live d) place (fr.insert d y) mem σ' := by
  have hne {v : ValueId} (hv : FrameAddress x.func v) : v ≠ d := by
    rintro rfl
    exact hd ((hx.known v).mpr hv)
  -- the slots of other values stay as they are
  have hother {w : ValueId} {s' : Span} (hw : w ≠ d)
      (hs' : L.spans[w]? = some s') (i : Nat)
      (hi : (i : Int) < s'.len.toInt) : σ' (s'.base + Int32.ofNat i)
      = σ (s'.base + Int32.ofNat i) :=
    hputs.other _ (.inl (hx.laid.slot_lt hn hs' hi)) fun j hj =>
      hx.laid.slot_ne hw hs' hs hi (by omega)
  refine { hA with
    values := fun w z hw hz => ?_, address := fun r h v k hr hk hv => ?_,
    room := fun r h s' hr hlr hs' => ?_, whole :=
      fun r h s' hr hlr => hA.whole r h s' hr hlr.1,
    single := fun r r' h hr hr' hlr hlr' =>
      hA.single r r' h hr hr' hlr.1 hlr'.1,
    apart := fun r r' h h' s' s'' hr hr' hrr' hlr hlr' =>
      hA.apart r r' h h' s' s'' hr hr' hrr' hlr.1 hlr'.1,
    link :=
      hx.link_kept hputs (fun i hi => ⟨d, s, i, hs, by omega, rfl⟩) hA.link }
  · rw [getElem?_insert_frame] at hz
    split at hz
    · rename_i hdw
      subst hdw
      cases hz
      exact ⟨s, hs, hlen, fun _ => hputs.here⟩
    · rename_i hdw
      obtain ⟨s', hs', hlen', hshows⟩ := hA.values w z hw hz
      refine ⟨s', hs', hlen', fun hfree => ?_⟩
      refine (hshows fun r hr hlr => hfree r hr ⟨hlr, fun hrd => ?_⟩).keep
        fun i hi =>
        hother (Ne.symm hdw) hs' i (by omega)
      exact hdw (hx.fixed.home_unique hrd hr)
  · have hfa := hk.frameAddress (.home hr)
    rw [lookScalar_insert_of_ne (by simpa using hne hfa)]
    exact hA.address r h v k hr hk hv.1
  · refine (hA.room r h s' hr hlr.1 hs').keep (hother ?_ hs')
    rintro rfl
    exact hlr.2 hr

/-- Words are stored in the memory of a place and in its slots. -/
theorem store (hA : Agrees x L live place fr mem σ) (hx : x.Framed L)
    (hn : L.frameSize.toInt ≤ n) (hr : Home x.func r h) (hlr : live r)
    (hs : L.spans[h]? = some s) {j : Nat}
    (hj : (j : Int) + xs.length ≤ s.len.toInt)
    (hputs : Puts n e (s.base + Int32.ofNat j) xs σ σ') :
    Agrees x L live place fr (mem.write (place r + j) xs) σ' := by
  have hslot (i : Nat) : s.base + Int32.ofNat j + Int32.ofNat i
      = s.base + Int32.ofNat (j + i) := by
    rw [Int32.add_assoc, ← Int32.ofNat_add]
  have hother {w : ValueId} {s' : Span} (hw : w ≠ h)
      (hs' : L.spans[w]? = some s') (i : Nat)
      (hi : (i : Int) < s'.len.toInt) :
      σ' (s'.base + Int32.ofNat i) = σ (s'.base + Int32.ofNat i) := by
    refine hputs.other _ (.inl (hx.laid.slot_lt hn hs' hi)) fun k hk => ?_
    rw [hslot]
    exact hx.laid.slot_ne hw hs' hs hi (by push_cast; omega)
  have hhouse := hA.room r h s hr hlr hs
  have hwithin := hhouse.within
  have hsmall := hx.laid.len_le hs
  refine { hA with
    values := fun w z hw hz => ?_, room := fun r' h' s' hr' hlr' hs' => ?_,
    whole := fun r' h' s' hr' hlr' hs' i hi => ?_, fresh := fun b hb => ?_,
    pos := by rw [Memory.size_write]; exact hA.pos,
    bounded := ⟨by rw [Memory.size_write]; exact hA.bounded.limit,
      by rw [Memory.size_write, Memory.room_write]; exact hA.bounded.stored⟩,
    link :=
      hx.link_kept hputs (fun i hi => ⟨h, s, j + i,
        hs, by push_cast; omega, hslot i⟩)
      hA.link }
  · obtain ⟨s', hs', hlen', hshows⟩ := hA.values w z hw hz
    refine ⟨s', hs', hlen',
      fun hfree => (hshows hfree).keep fun i hi => hother ?_ hs' i (by omega)⟩
    rintro rfl
    exact hfree r hr hlr
  · have hhouse' := hA.room r' h' s' hr' hlr' hs'
    refine ⟨hhouse'.pos, by rw [Memory.size_write]; exact hhouse'.within,
      fun i z hi hz => ?_⟩
    by_cases hrr' : r' = r
    · subst hrr'
      obtain rfl := hx.fixed.home_unique hr' hr
      rw [hs, Option.some.injEq] at hs'
      subst hs'
      by_cases hin : j ≤ i ∧ i < j + xs.length
      · rw [show place r' + i = place r' + j + (i - j) by omega,
          Memory.words_write_of_inside (by omega)] at hz
        obtain ⟨e, he, hez, hσ⟩ := hputs.here (i - j) z hz
        rw [hslot, Nat.add_sub_cancel' hin.1] at hσ
        exact ⟨e, he, hez, hσ⟩
      · rw [Memory.words_write_of_outside (by omega)] at hz
        rw [hputs.other _ (.inl (hx.laid.slot_lt hn hs hi)) fun k hk heq => ?_]
        · exact hhouse.shown i z hi hz
        · rw [hslot] at heq
          have := add_ofNat_inj (by omega) (by omega) heq
          omega
    · have := hA.apart r' r h' h s' s hr' hr hrr' hlr' hlr hs' hs
      have hne : h' ≠ h := by
        rintro rfl
        exact hrr' (hA.single r' r h' hr' hr hlr' hlr)
      rw [Memory.words_write_of_outside (by omega)] at hz
      rw [hother hne hs' i hi]
      exact hhouse'.shown i z hi hz
  · exact Memory.mem_words_write (hA.whole r' h' s' hr' hlr' hs' i hi)
  · rw [Memory.size_write] at hb
    rw [Memory.words_write_of_outside (by omega), hA.fresh b hb]

/-- A known address is derived from another. -/
theorem derive (hA : Agrees x L live place fr mem σ)
    (hx : x.Framed L) {b : ValueId} {off : Int32} (hi : x.func.HasInstr i)
    (hderives : Generator.derivation i = some (d, b, off))
    (hbase : FrameAddress x.func b) (hlb : live b)
    (hy : ∀ c, 0 ≤ off ∧ off < 2147483647 → lookScalar fr (.value b) = some c →
      y.slots = [c + off.toInt64]) :
    Agrees x L (fun v => v = d ∨ live v) place (fr.insert d y) mem σ := by
  have hd : FrameAddress x.func d := .step hi hderives hbase
  have hdest : d ∈ i.dests := by
    rw [(dests_of_derivation hderives).1]
    exact List.mem_cons_self
  have hne {r h : ValueId} (hr : Home x.func r h) : r ≠ d := by
    rintro rfl
    obtain ⟨i', hi', hhome⟩ := id hr
    obtain rfl := hx.fixed.instr_unique hd hi hi' hdest
      (by rw [dests_of_homeOf? hhome]; simp)
    cases i <;> cases hhome <;> cases hderives
  have hkept {r h : ValueId} (hr : Home x.func r h) (hlr : r = d ∨ live r) :
      live r :=
    hlr.resolve_left (hne hr)
  refine { hA with
    values := fun w z hw hz => ?_, address := fun r h v k hr hk hv => ?_,
    room := fun r h s hr hlr hs => hA.room r h s hr (hkept hr hlr) hs,
    whole := fun r h s hr hlr => hA.whole r h s hr (hkept ⟨_, hr, rfl⟩ hlr),
    single := fun r r' h hr hr' hlr hlr' =>
      hA.single r r' h hr hr' (hkept hr hlr) (hkept hr' hlr'),
    apart := fun r r' h h' s s' hr hr' hrr' hlr hlr' =>
      hA.apart r r' h h' s s' hr hr' hrr' (hkept hr hlr) (hkept hr' hlr') }
  · rw [getElem?_insert_frame, if_neg] at hz
    · obtain ⟨s, hs, hlen, hshows⟩ := hA.values w z hw hz
      exact ⟨s, hs, hlen, fun hfree => hshows fun r hr hlr =>
        hfree r hr (Or.inr hlr)⟩
    · rintro rfl
      exact hw ((hx.known d).mpr hd)
  · by_cases hvd : v = d
    · subst hvd
      cases hk with
      | refl => exact absurd rfl (hne hr)
      | step hi' hderives' hcanonical hbase' =>
          obtain rfl := hx.fixed.instr_unique hd hi hi' hdest (by
            rw [(dests_of_derivation hderives').1]
            exact List.mem_cons_self)
          rw [hderives, Option.some.injEq, Prod.mk.injEq,
            Prod.mk.injEq] at hderives'
          obtain ⟨-, rfl, rfl⟩ := hderives'
          rw [lookScalar_insert_self
            (hy _ hcanonical (hA.address r h b _ hr hbase' hlb)),
            Int64.add_assoc]
    · rw [lookScalar_insert_of_ne (by simpa using hvd)]
      exact hA.address r h v k hr hk (hv.resolve_left hvd)

/-- An address is made of a place: its memory is new, with words that are in the
slots of the place, and what was derived from the address before is gone. -/
theorem settle (hA : Agrees x L live place fr mem σ)
    (hx : x.Framed L) {m c : Int64} {mem' : Memory} (hd : Home x.func d h)
    (hs : L.spans[h]? = some s) (ha : mem.alloc m = .ok (c, mem'))
    (hm : m = s.len) (hlen : (xs.length : Int) ≤ s.len.toInt)
    (hshows : Shows σ s.base xs)
    (hwhole : x.func.HasInstr (.addressOf d h) →
      (xs.length : Int) = s.len.toInt) :
    Agrees x L (Occupied x.func live d h) (Function.update place d mem.size)
      (fr.insert d ⟨[c], 0⟩) (mem'.write mem.size xs) σ := by
  obtain ⟨⟨-, hlimit⟩, rfl, rfl⟩ := Memory.alloc_eq_ok.mp ha
  subst hm
  have hstatic : d ∈ x.static := (hx.known d).mpr (.home hd)
  -- the clauses of the agreement in order; in each the place just handed out is
  -- set apart from those that were there
  refine ⟨fun w z hw hz => ?_, fun r h' v k hr hk hv => ?_,
    fun r h' s' hr hlr hs' => ?_,
    fun r h' s' hr hlr hs' i hi => ?_, fun r r' h' hr hr' hlr hlr' => ?_,
    fun r r' h₁ h₂ s₁ s₂ hr hr' hrr' hlr hlr' hs₁ hs₂ => ?_,
    fun b hb => ?_, ?_, ?_, hA.link⟩
  · have hwd : d ≠ w := by
      rintro rfl
      exact hw hstatic
    rw [getElem?_insert_frame, if_neg hwd] at hz
    obtain ⟨s', hs', hlen', hshows'⟩ := hA.values w z hw hz
    refine ⟨s', hs', hlen', fun hfree => hshows' fun r hr hlr => ?_⟩
    -- a value that is free afterwards was so before
    have hne : w ≠ h := by
      rintro rfl
      exact hfree d hd (Or.inl rfl)
    refine hfree r hr
      (Or.inr ⟨hlr, fun hrh => hne (hx.fixed.home_unique hr hrh),
      fun k hk => ?_⟩)
    obtain ⟨rfl, -⟩ := hk.of_home hx.fixed hr
    exact hne (hx.fixed.home_unique hr hd)
  · by_cases hvd : v = d
    · subst hvd
      obtain ⟨rfl, rfl⟩ := hk.of_home hx.fixed hd
      rw [lookScalar_insert_self rfl, Function.update_self, Int64.add_zero]
    · obtain ⟨hlv, -, hnot⟩ := hv.resolve_left hvd
      have hrd : r ≠ d := by
        rintro rfl
        exact hnot k hk
      rw [lookScalar_insert_of_ne (by simpa using hvd),
        Function.update_of_ne hrd]
      exact hA.address r h' v k hr hk hlv
  · obtain ⟨rfl, rfl⟩ | ⟨hrd, hl, -⟩ := hlr.split hx.fixed hd hr
    · rw [hs, Option.some.injEq] at hs'
      subst hs'
      rw [Function.update_self]
      exact .handed hA.pos hA.fresh rfl rfl hshows
    · rw [Function.update_of_ne hrd]
      exact (hA.room r h' s' hr hl hs').grow rfl (Nat.le_add_right _ _)
  · obtain ⟨rfl, rfl⟩ | ⟨hrd, hl, -⟩ := hlr.split hx.fixed hd ⟨_, hr, rfl⟩
    · rw [hs, Option.some.injEq] at hs'
      subst hs'
      have hfull := hwhole hr
      rw [Function.update_self, Std.ExtTreeMap.mem_iff_isSome_getElem?,
        Memory.words_write_of_inside (by omega),
          List.getElem?_eq_getElem (by omega)]
      rfl
    · rw [Function.update_of_ne hrd]
      exact Memory.mem_words_write (hA.whole r h' s' hr hl hs' i hi)
  · obtain ⟨rfl, rfl⟩ | ⟨hrd, hl, hne⟩ := hlr.split hx.fixed hd hr
    · obtain ⟨rfl, -⟩ | ⟨-, -, hne⟩ := hlr'.split hx.fixed hd hr'
      · rfl
      · exact absurd rfl hne
    · obtain ⟨-, rfl⟩ | ⟨-, hl', -⟩ := hlr'.split hx.fixed hd hr'
      · exact absurd rfl hne
      · exact hA.single r r' h' hr hr' hl hl'
  · obtain ⟨rfl, rfl⟩ | ⟨hrd, hl, -⟩ := hlr.split hx.fixed hd hr
    · obtain ⟨rfl, -⟩ | ⟨hrd', hl', -⟩ := hlr'.split hx.fixed hd hr'
      · exact absurd rfl hrr'
      · rw [Function.update_self, Function.update_of_ne hrd']
        exact Or.inr (hA.room r' h₂ s₂ hr' hl' hs₂).within
    · rw [Function.update_of_ne hrd]
      obtain ⟨rfl, rfl⟩ | ⟨hrd', hl', -⟩ := hlr'.split hx.fixed hd hr'
      · rw [Function.update_self]
        exact Or.inl (hA.room r h₁ s₁ hr hl hs₁).within
      · rw [Function.update_of_ne hrd']
        exact hA.apart r r' h₁ h₂ s₁ s₂ hr hr' hrr' hl hl' hs₁ hs₂
  · rw [Memory.size_write] at hb
    have hb : mem.size + s.len.toInt.toNat ≤ b := hb
    rw [Memory.words_write_of_outside (by omega)]
    exact hA.fresh b (by omega)
  · rw [Memory.size_write]
    exact Nat.lt_of_lt_of_le hA.pos (Nat.le_add_right _ _)
  · exact ⟨by rw [Memory.size_write]; exact hlimit,
      by rw [Memory.size_write, Memory.room_write]; exact Storage.le_regrown _ _⟩

end Agrees

-- ================================================================== reading

/-- The words at an address are those of the value that it was taken of. -/
def Current (fr : Frame) (mem : Memory) (d h : ValueId) : Prop :=
  ∀ y a, fr[h]? = some y → lookScalar fr (.value d) = some a →
    ∀ (k : Nat) z, y.slots[k]? = some z → mem.words[a.toInt.toNat + k]? = some z

/-- Some values of a frame. -/
def only (fr : Frame) (vs : List ValueId) : Frame :=
  fr.filter fun v _ => vs.contains v

/-- A frame cut down to some values has those. -/
theorem getElem?_only (fr : Frame) (vs : List ValueId) (v : ValueId) :
    (only fr vs)[v]? = if v ∈ vs then fr[v]? else none := by
  rw [only, Std.ExtTreeMap.getElem?_filter']
  by_cases hv : v ∈ vs
  · cases fr[v]? <;> simp [hv]
  · cases fr[v]? <;> simp [hv]

/-- What is read is among the values that are read. -/
theorem agree_only (fr : Frame) (os : List Operand) :
    Agree fr (only fr (Operand.ids os)) os :=
  agree_of_ids fun v hv => by rw [getElem?_only, if_pos hv]

/-- Values that are read are in their slots: they have not lent them, or what is
there is still what they are. -/
theorem Agrees.mirrors_only
    (hA : Agrees x L live place fr mem σ) (hx : x.Framed L) {vs : List ValueId}
    (hcurrent : ∀ r w, w ∈ vs → x.func.HasInstr (.addressOf r w) → live r →
      Current fr mem r w) : x.Mirrors L (only fr vs) σ := by
  intro v y hv hy
  rw [getElem?_only] at hy
  split at hy
  swap
  · cases hy
  rename_i hmem
  obtain ⟨s, hs, hlen, hshows⟩ := hA.values v y hv hy
  refine ⟨s, hs, hlen, ?_⟩
  by_cases hfree : ∀ r, Home x.func r v → ¬ live r
  · exact hshows hfree
  obtain ⟨r, hr, hlr⟩ : ∃ r, Home x.func r v ∧ live r := by
    simpa only [not_forall, not_not, exists_prop] using hfree
  have hi := hr.addressOf fun hfa => hv ((hx.known v).mpr hfa)
  have hhouse := hA.room r v s hr hlr hs
  have hlook := hA.address r v r 0 hr .refl hlr
  rw [Int64.add_zero] at hlook
  intro k z hz
  have hk := (List.getElem?_eq_some_iff.mp hz).1
  have hword := hcurrent r v hmem hi hlr y _ hy hlook k z hz
  have hwithin := hhouse.within
  have hlimit := hA.bounded.limit
  rw [Memory.toInt_ofNat (by omega), Int.toNat_natCast] at hword
  exact hhouse.shown k z (by omega) hword

end MirBackend.Asm
