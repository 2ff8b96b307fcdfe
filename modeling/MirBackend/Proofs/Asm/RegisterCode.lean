/-
The code of a module of typed functions.

At every point of the code of a function the frame has grown from how it was
laid out, but not beyond what a frame may have (`Grown`). So the code of a typed
function stands in a program with all that a run of it relies on (`Compiled`),
and under one table all functions of a module do (`generate_compiled`).
-/
import Mathlib
import MirBackend.Proofs.Asm.RegisterSteps

namespace MirBackend.Asm

variable {m : Module} {f : Func} {p : Program} {code : List Insn}
  {base : Nat} {t : Link.Table} {x : Scope} {L : Layout}
  {n : Nat} {b B : Builder}

/-- The frame has grown from how it was laid out, and not beyond what a frame
may have. -/
def Grown (L : Layout) (b : Builder) : Prop :=
  ∃ n : Nat, b.layout = some { L with frameSize := Int64.ofNat n }
    ∧ L.frameSize.toInt ≤ n
    ∧ n ≤ 16777216

/-- A frame may have grown without its values being elsewhere. -/
theorem Scope.Laid.widen (hx : x.Laid L) (hlow : L.frameSize.toInt ≤ n)
    (hn : n ≤ 16777216) : x.Laid { L with frameSize := Int64.ofNat n } := by
  have hsize : (Int64.ofNat n).toInt = n := Int64.toInt_ofNat_of_lt (by omega)
  exact ⟨hx.toLaid.widen (by omega) (by omega), hx.address, hx.len⟩

/-- A frame that has grown is the first stage of itself. -/
theorem Grown.stage (h : Grown L b) (hx : x.Laid L) :
    ∃ n : Nat, L.frameSize.toInt ≤ n
    ∧ x.Laid { L with frameSize := Int64.ofNat n }
    ∧ Stage { L with frameSize := Int64.ofNat n } 0 n b := by
  obtain ⟨n, hl, hlow, hn⟩ := h
  have hx' := hx.widen hlow hn
  have hS := Stage.here hl hx'.nonneg hx'.fits
  have hsize : (Int64.ofNat n).toInt.toNat = n := by
    rw [Int64.toInt_ofNat_of_lt (by omega), Int.toNat_natCast]
  dsimp only at hS
  rw [hsize] at hS
  exact ⟨n, hlow, hx', hS⟩

/-- The frame ends where a frame may end. -/
theorem Grown.top_le (h : Grown L b) : b.top ≤ 16777216 := by
  obtain ⟨n, hl, -, hn⟩ := h
  rw [Builder.top, hl]
  show (Int64.ofNat n).toInt ≤ 16777216
  rw [Int64.toInt_ofNat_of_lt (by omega)]
  omega

/-- The code of a typed function stands in a program from its entry point on. -/
structure Compiled (m : Module) (code : List Insn) (t : Link.Table)
    (x : Scope) (L : Layout) (B : Builder) (base : Nat)
    (pos : BlockId → Nat) : Prop where
  module : x.module = m
  typed : x.func.Typed m
  laid : x.Laid L
  plain : ∀ v, v ∉ x.static
  coded : x.Coded (Grown L) pos B
  entry : pos x.func.entry = 0
  standing : Standing code base t B
  address : t.addresses[x.func.name]? = some (Int32.ofNat base)

/-- The frame is never too large on the way from how it was laid out to its
end. -/
theorem Generator.Parts.grown {names : Names}
    (hfit : ∀ g ∈ m.functions,
      Layout.widthOf g g.params + Ty.widthOfList g.returns ≤ 16777216)
    (p : Generator.Parts m f (Generator.emptyBuilder f L names) B)
    (hL : Layout.Laid f L) (hlen : B.code.length ≤ 2 ^ 30) :
    ∃ pos, p.scope.Coded (Grown L) pos B ∧ pos f.entry = 0 := by
  have hR := (Extends.closed m).and (Grows.closed hfit)
  have hlabel (name : String) : Emitting _ (Builder.label name) :=
    fun b u b' h =>
    And.intro (Extends.emitting_label name b u b' h)
      (Grows.labelling.label name b u b' h)
  have hfits : p.last.frameSize.toInt ≤ 16777216 :=
    Int64.le_iff_toInt_le.mp (Int64.not_lt.mp p.fits)
  obtain ⟨start, b₀, hstarts, hfirst, hempty, hlayout⟩ := p.starts hR hlabel
  refine ⟨_,
    hstarts.coded_between (P := Grown L) hR (fun c hbefore hbehind => ?_) hlabel
    (fun _ _ h => h.1) p.order.2, ?_⟩
  · exact hbefore.2.framed hbehind.2 hlayout hL.nonneg hL.fits
      p.hlast hfits hlen
  · rw [hfirst, hempty]
    rfl

/-- A typed function has no address that is known beforehand. -/
theorem Generator.Parts.plain {names : Names}
    (p : Generator.Parts m f (Generator.emptyBuilder f L names) B)
    (hf : f.Typed m) : ∀ v, v ∉ p.scope.static := by
  intro v hv
  obtain ⟨a, ha⟩ :=
    Option.isSome_iff_exists.mp (Std.ExtTreeMap.mem_iff_isSome_getElem?.mp hv)
  exact hf.not_address (p.explained.1.known v a ha)

/-- All functions of a module of typed functions stand in the program under one
table. -/
theorem generate_compiled {metadata : Metadata}
    (hnames : (m.functions.map (·.name)).Nodup)
    (hgen : generate m metadata = .ok p) (hsize : p.items.length ≤ 2 ^ 30)
    (htyped : ∀ f ∈ m.functions, f.Typed m) :
    ∃ t, ∀ f ∈ m.functions, ∃ x L B base pos, x.func = f
        ∧ Compiled m p.code t x L B base pos
      ∧ p.entrypoints[f.name]?
        = some ⟨Int32.ofNat base, Generator.slotCounts (f.params.map L.slots),
        Generator.slotCounts (f.returns.map Ty.slots)⟩ := by
  obtain ⟨t, hall⟩ := generate_functions hnames hgen hsize
  have hfit (g : Func) (hg : g ∈ m.functions) :
      Layout.widthOf g g.params + Ty.widthOfList g.returns ≤ 16777216 := by
    obtain ⟨Lg, -, -, -, hLg, -⟩ := hall g hg
    exact (Layout.compute_laid (htyped g hg).sized hLg).signature
  refine ⟨t, fun f hf => ?_⟩
  obtain ⟨L, names, B, base, hL, hbody, hst, haddress, hentry⟩ := hall f hf
  obtain ⟨parts⟩ := Generator.body_parts hbody
  have hlaid := Layout.compute_laid (htyped f hf).sized hL
  have hplain := parts.plain (htyped f hf)
  obtain ⟨pos, hcoded, hpos⟩ := parts.grown hfit hlaid hst.length_le
  exact ⟨parts.scope, L, B, base, pos, rfl, ⟨rfl, htyped f hf,
    ⟨hlaid, fun v hv => absurd hv (hplain v),
      fun v s hs hv => len_eq_slots hlaid parts.explained.2 hs hv⟩,
    hplain, hcoded, hpos, hst, haddress⟩, hentry⟩

end MirBackend.Asm
