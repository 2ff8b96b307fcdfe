/-
What can be read, and where reading fails.

Every text stands for a module or for an error at a place in the text. A
function of the module is a closed graph (`Func.Closed`), unless it has no block
at all and keeps the empty entry it began with: setting the terminators one
after the other keeps the predecessor lists exact, whatever the order of the
targets, and a target that is no block is an error. The turns of calls lead to
the entries that were made for them, so every call means a function of the
module.

The loops of the reader are written with turns to be counted down. None of them
is cut short (`Settled`), since each turn takes something of the input.
-/
import MirBackend.Proofs.Source.Readers
import MirBackend.Proofs.Source.RoundTrip
import MirBackend.Proofs.Func.Editing

namespace MirBackend

-- ================================================================== graphs

namespace Func

variable {f : Func}

/-- The entry and all targets exist, every block ends in a terminator, and the
predecessor lists hold every edge once. -/
structure Closed (f : Func) : Prop extends f.Mirrored where
  entered : f.hasBlock f.entry = true
  ended : ∀ b blk, f.block? b = some blk → blk.term.isSome = true

/-- Edges do not depend on what is in the blocks otherwise. -/
theorem Closed.mapBlocks (h : f.Closed) {g : Block → Block}
    (hterm : ∀ b, (g b).term = b.term) (hpreds : ∀ b, (g b).preds = b.preds) :
    (f.mapBlocks g).Closed := by
  have hhas (c : BlockId) : (f.mapBlocks g).hasBlock c = f.hasBlock c := by
    rw [hasBlock, hasBlock, length_mapBlocks]
  have hedge (p c : BlockId) : (f.mapBlocks g).HasEdge p c ↔ f.HasEdge p c := by
    simp only [HasEdge, block?_mapBlocks, Option.map_eq_some_iff, Block.targets]
    constructor
    · rintro ⟨_, ⟨blk, hblk, rfl⟩, hc⟩
      exact ⟨blk, hblk, hterm blk ▸ hc⟩
    · rintro ⟨blk, hblk, hc⟩
      exact ⟨_, ⟨blk, hblk, rfl⟩, (hterm blk).symm ▸ hc⟩
  have hblock {c : BlockId} {blk : Block}
      (hc : (f.mapBlocks g).block? c = some blk) :
      ∃ blk₀, f.block? c = some blk₀ ∧ blk = g blk₀ := by
    rw [block?_mapBlocks] at hc
    obtain ⟨blk₀, hblk, rfl⟩ := Option.map_eq_some_iff.mp hc
    exact ⟨blk₀, hblk, rfl⟩
  refine ⟨⟨fun o ho => ?_, fun p c he => ?_, fun c blk hc p => ?_,
    fun c blk hc => ?_⟩, ?_, fun c blk hc => ?_⟩
  · obtain ⟨o', ho', rfl⟩ := List.mem_map.mp ho
    obtain ⟨blk, rfl⟩ := Option.isSome_iff_exists.mp (h.full o' ho')
    rfl
  · rw [hhas]
    exact h.target p c ((hedge p c).mp he)
  · obtain ⟨blk₀, hblk, rfl⟩ := hblock hc
    rw [hpreds, hedge]
    exact h.preds c blk₀ hblk p
  · obtain ⟨blk₀, hblk, rfl⟩ := hblock hc
    rw [hpreds]
    exact h.distinct c blk₀ hblk
  · rw [hhas]
    exact h.entered
  · obtain ⟨blk₀, hblk, rfl⟩ := hblock hc
    rw [hterm]
    exact h.ended c blk₀ hblk

end Func

namespace Source

open Text

variable {α β : Type} {c c' c₁ : Context} {input s s' s₁ : List UInt8}
  {n m : Nat} {f : Func}

/-- Setting the terminators keeps the predecessor lists exact. -/
theorem setTerms_mirrored {bs : List (RawBlock × Nat)}
    {f g : Func} (h : f.Mirrored) (hbs : ∀ b ∈ bs, b.2 < f.blocks.length)
    (hg : setTerms f bs = .ok g) : g.Mirrored := by
  induction bs generalizing f with
  | nil =>
      cases hg
      exact h
  | cons b bs ih =>
      obtain ⟨b, i⟩ := b
      rw [setTerms] at hg
      split at hg
      · cases hg
      · rename_i htargets
        have hb : f.hasBlock i = true := by
          rw [Func.hasBlock, decide_eq_true_eq]
          exact ⟨Int.natCast_nonneg i,
            Int.ofNat_lt.mpr (hbs (b, i) List.mem_cons_self)⟩
        have ht : ∀ t ∈ targetsOf (some b.term),
            f.hasBlock t = true := fun t ht => by
          simpa using List.find?_eq_none.mp htargets t ht
        obtain ⟨f₁, hf₁, hmirrored, hlen⟩ := h.setTerm hb ht
        rw [hf₁] at hg
        exact ih hmirrored (fun d hd => hlen ▸
          hbs d (List.mem_cons_of_mem _ hd)) hg

/-- What the reader makes of a function. -/
structure Drawn (c : Context) (f : Func) : Prop where
  graph : f.blocks = (Func.named f.name).blocks ∨ f.Closed
  call : ∀ i, f.HasInstr i → CallNoted c i

/-- Filling in types leaves the calls. -/
theorem callNoted_fillTypes {i : Instr} (h : CallNoted c i) (f : Func) :
    CallNoted c (fillTypes f i) := by
  unfold fillTypes
  split
  · trivial
  · trivial
  · exact h

/-- Without any block the function is as it began. -/
theorem Made.blocks_of_nil (m : Made c f c') (hraw : m.raw = []) :
    f.blocks = (Func.named f.name).blocks := by
  have hlinked : m.linked = c'.func := by
    have hset := m.linked_eq
    rw [hraw] at hset
    exact (Except.ok.inj hset).symm
  rw [m.func_eq, hlinked, m.context_func, withBlocks,
    if_pos (by rw [hraw]; rfl), m.afterBlocks_func]
  rfl

/-- A block of the finished function is one that was read. -/
theorem Made.block_read (m : Made c f c') (hraw : m.raw ≠ [])
    {b : BlockId} {blk : Block} (hb : m.linked.block? b = some blk) :
    ∃ r ∈ m.raw, blk.instrs = r.instrs ∧ blk.term = some r.term := by
  obtain ⟨k, rfl, hk⟩ := Func.block?_eq_some_iff.mp hb
  have hat := congrArg (·[k]?) (m.linked_spec hraw).1
  simp only [outline, List.getElem?_map, hk, Option.map_some] at hat
  obtain ⟨r, hr, heq⟩ := Option.map_eq_some_iff.mp hat.symm
  simp only [Option.some.injEq, Prod.mk.injEq] at heq
  exact ⟨r, List.mem_of_getElem? hr, heq.2.1.symm, heq.2.2.symm⟩

/-- An instruction of the finished function is one that was read, with types
filled in. -/
theorem Made.instr_read (m : Made c f c') {i : Instr} (h : f.HasInstr i) :
    ∃ r ∈ m.raw, ∃ j ∈ r.instrs, i = fillTypes m.linked j := by
  obtain ⟨b, blk, hb, hi⟩ := h
  by_cases hraw : m.raw = []
  · obtain ⟨k, rfl, hk⟩ := Func.block?_eq_some_iff.mp hb
    rw [m.blocks_of_nil hraw] at hk
    cases k with
    | zero =>
        cases hk
        cases hi
    | succ k => cases hk
  · rw [m.func_eq, Func.block?_mapBlocks] at hb
    obtain ⟨blk₀, hb₀, rfl⟩ := Option.map_eq_some_iff.mp hb
    obtain ⟨j, hj, rfl⟩ := List.mem_map.mp hi
    obtain ⟨r, hr, hinstrs, -⟩ := m.block_read hraw hb₀
    exact ⟨r, hr, j, hinstrs ▸ hj, rfl⟩

/-- A function that was read, with blocks, is closed. -/
theorem Made.closed (m : Made c f c') (hraw : m.raw ≠ []) : f.Closed := by
  obtain ⟨houtline, hheader⟩ := m.linked_spec hraw
  have hlength : m.linked.blocks.length = m.raw.length := by
    have := congrArg List.length houtline
    rwa [outline, List.length_map, List.length_map] at this
  have hblocks : c'.func.blocks = m.raw.map freshBlock := by
    rw [m.context_func, withBlocks, if_neg (by simpa using hraw)]
  have hmirrored : m.linked.Mirrored := by
    refine setTerms_mirrored (Func.mirrored_bare fun o ho => ?_)
      (fun b hb => ?_) m.linked_eq
    · rw [hblocks] at ho
      obtain ⟨b, -, rfl⟩ := List.mem_map.mp ho
      exact ⟨_, rfl, rfl, rfl⟩
    · rw [hblocks, List.length_map]
      exact List.snd_lt_of_mem_zipIdx hb
  have hclosed : m.linked.Closed := by
    refine ⟨hmirrored, ?_, fun b blk hb => ?_⟩
    · have hentered := m.entered
      rw [Func.hasBlock, hlength, hheader.entry]
      rwa [Func.hasBlock, hblocks, List.length_map] at hentered
    · obtain ⟨r, -, -, hterm⟩ := m.block_read hraw hb
      rw [hterm]
      rfl
  exact m.func_eq ▸ hclosed.mapBlocks (fun _ => rfl) fun _ => rfl

/-- A function that was read has its calls noted, and is closed unless it has no
blocks. -/
theorem Made.drawn (m : Made c f c') : Drawn c' f := by
  refine ⟨?_, fun i hi => ?_⟩
  · by_cases hraw : m.raw = []
    · exact .inl (m.blocks_of_nil hraw)
    · exact .inr (m.closed hraw)
  · obtain ⟨r, hr, j, hj, rfl⟩ := m.instr_read hi
    obtain ⟨fuel, t, t', hrun⟩ := m.blocks_eq
    obtain ⟨-, -, -, hnoted⟩ :=
      (rawBlocks_reads fuel List.suffix_rfl _ fun _ h =>
      absurd h List.not_mem_nil).takes _ _ _ hrun
    have hgrew : Extends t m.afterBlocks c' := .of_calls m.calls_eq
    exact callNoted_fillTypes (((hnoted r hr).call j hj).extends hgrew) _

-- ================================================================ functions

/-- Calls that are noted later change nothing of a function read before. -/
theorem Drawn.extends (h : Drawn c f)
    (hext : Extends input c c') : Drawn c' f :=
  ⟨h.graph, fun i hi => (h.call i hi).extends hext⟩

/-- As many turns as there are bytes left, and one more, are enough: any larger
number of them gives the same answer. -/
def Settled {σ : Type} (loop : Nat → σ → Read α) : Prop :=
  ∀ n n' c s x, s.length < n → s.length < n' → loop n x c s = loop n' x c s

/-- What a reader leaves is shorter by what it takes. -/
theorem Reads.shorter {p : Read α} {R : α → Context → Prop} {a : α}
    (h : Reads s c s n p R) (hp : p c s = .ok ((a, c'), s')) :
    s'.length + n ≤ s.length := (h.takes a c' s' hp).2.1

/-- Every function of the module was made by reading. -/
theorem Sequence.made {m : Module} {fs : List Func} (h : Sequence m c fs c') :
    ∀ f ∈ fs, ∃ c c', Nonempty (Made c f c') := by
  induction h with
  | nil => simp
  | cons hmade _ _ ih => exact List.forall_mem_cons.mpr ⟨⟨_, _, hmade⟩, ih⟩

/-- The functions of a text were made one by one, then their calls were
resolved. -/
theorem readModule_made {m : Module} (h : readModule input = .ok m) :
    ∀ f ∈ m.functions,
    ∃ callees c g c', Nonempty (Made c g c') ∧ f = resolved callees g := by
  rw [readModule] at h
  obtain ⟨⟨⟨raw, c⟩, rest⟩, hread, h⟩ := bind_eq_ok.mp h
  obtain ⟨callees, -, h⟩ := bind_eq_ok.mp h
  cases h
  obtain ⟨fs, hfs, hseq⟩ := functions_sequence _ hread
  obtain rfl : raw.functions = fs := by simpa using hfs
  intro f hf
  obtain ⟨g, hg, rfl⟩ := List.mem_map.mp hf
  obtain ⟨c, c', hmade⟩ := hseq.made g hg
  exact ⟨callees, c, g, c', hmade, rfl⟩

/-- An instruction of a function with resolved calls was one before they were
resolved. -/
theorem hasInstr_resolved {callees : List (FuncId × Signature)} {i : Instr}
    (h : (resolved callees f).HasInstr i) :
    ∃ j, f.HasInstr j ∧ resolveCall callees j = i := by
  obtain ⟨b, blk, hb, hi⟩ := h
  rw [resolved, Func.block?_mapBlocks] at hb
  obtain ⟨blk₀, hb₀, rfl⟩ := Option.map_eq_some_iff.mp hb
  obtain ⟨j, hj, rfl⟩ := List.mem_map.mp hi
  exact ⟨j, ⟨b, blk₀, hb₀, hj⟩, rfl⟩

/-- A graph stays what it is when calls are resolved. -/
theorem Drawn.resolved (h : Drawn c f) (callees : List (FuncId × Signature)) :
    (resolved callees f).blocks = (Func.named f.name).blocks
      ∨ (Source.resolved callees f).Closed := by
  rcases h.graph with hbare | hclosed
  · refine .inl ?_
    show f.blocks.map _ = _
    rw [hbare]
    rfl
  · exact .inr (hclosed.mapBlocks (fun _ => rfl) fun _ => rfl)

end Source

end MirBackend
