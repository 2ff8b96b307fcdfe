/-
A function in its program.

Linking puts the code of one function behind that of another. So the code of a
function stands in the program from the sum of the lengths before it on
(`generate_function`), and its entry point says that address, with the slots of
its parameters and results as they were laid out.
-/
import Mathlib
import MirBackend.Proofs.Asm.FrameRuns

namespace MirBackend.Asm

open Interp (Slots bind_ok_iff)

variable {code : List Insn} {base : Nat} {t : Link.Table}
  {bs bs' : List Builder} {b : Builder} {m : Module} {f : Func} {p : Program}

-- ================================================================= linking

namespace Link

/-- What is resolved is resolved one by one. -/
theorem resolveCode_getElem? {xs ys : List Insn} {pc : Nat}
    (h : resolveCode t pc xs = (ys, none)) {j : Nat} {x : Insn}
    (hx : xs[j]? = some x) :
    ∃ y, ys[j]? = some y ∧ resolve t (pc + j) x = .ok y := by
  induction xs generalizing ys pc j with
  | nil => simp at hx
  | cons x₀ xs ih =>
      rw [resolveCode] at h
      split at h
      · cases h
      rename_i y₀ hy₀
      obtain ⟨ys', hys'⟩ : ∃ ys', resolveCode t (pc + 1) xs = (ys', none)
          ∧ ys = y₀ :: ys' := by
        cases hrest : resolveCode t (pc + 1) xs with
        | mk ys' e =>
            rw [hrest] at h
            cases h
            exact ⟨ys', rfl, rfl⟩
      obtain ⟨hrest, rfl⟩ := hys'
      cases j with
      | zero =>
          cases hx
          exact ⟨y₀, rfl, hy₀⟩
      | succ j =>
          obtain ⟨y, hy, hres⟩ := ih hrest (by simpa using hx)
          exact ⟨y, by simpa using hy,
            by rwa [Nat.add_right_comm, Nat.add_assoc] at hres⟩

/-- Each builder is resolved at its place, behind those before it. -/
theorem Resolved.split {pc : Nat} (h : Resolved t pc bs bs')
    {before behind : List Builder} (hsplit : bs = before ++ b :: behind) :
    ∃ before' code behind', bs' = before' ++ { b with code } :: behind'
      ∧ before'.map (·.code.length) = before.map (·.code.length)
      ∧ resolveCode t (pc + (before.map (·.code.length)).sum) b.code
      = (code, none) := by
  induction h generalizing before with
  | done pc => simp at hsplit
  | @next pc b₀ code bs bs' here same rest ih =>
      cases before with
      | nil =>
          cases hsplit
          exact ⟨[], code, bs', rfl, rfl, here⟩
      | cons b₁ before =>
          rw [List.cons_append, List.cons.injEq] at hsplit
          obtain ⟨rfl, hsplit⟩ := hsplit
          obtain ⟨before', code', behind', rfl, hlens, hcode⟩ := ih hsplit
          refine ⟨{ b₀ with code } :: before', code', behind', rfl, ?_, ?_⟩
          · rw [List.map_cons, List.map_cons, hlens, same]
          · rwa [List.map_cons, List.sum_cons, ← same, ← Nat.add_assoc]

/-- Resolving changes code only. -/
theorem Resolved.map_func {pc : Nat} (h : Resolved t pc bs bs') :
    bs'.map (·.func) = bs.map (·.func) := by
  induction h with
  | done pc => rfl
  | next _ _ _ ih => rw [List.map_cons, List.map_cons, ih]

/-- Resolving changes no length. -/
theorem Resolved.map_length {pc : Nat} (h : Resolved t pc bs bs') :
    bs'.map (·.code.length) = bs.map (·.code.length) := by
  induction h with
  | done pc => rfl
  | next _ same _ ih => rw [List.map_cons, List.map_cons, ih, same]

/-- The code of a program is that of its functions, one after the other. -/
theorem code_assemble (t : Table) (bs : List Builder) :
    (assemble t bs).code = bs.flatMap (·.code) := by
  rw [Program.code, assemble, List.filterMap_append, List.filterMap_flatMap,
    List.filterMap_flatMap]
  simp [List.filterMap_map]

/-- The code of a builder stands behind that of the builders before it. -/
theorem getElem?_flatMap_code {before behind : List Builder} {q : Nat}
    (hq : q < b.code.length) :
    ((before ++ b :: behind).flatMap (·.code))[(before.map (·.code.length)).sum
      + q]?
      = b.code[q]? := by
  rw [List.flatMap_append, List.flatMap_cons, ← List.length_flatMap,
    List.getElem?_append_right (Nat.le_add_right _ _), Nat.add_sub_cancel_left,
    List.getElem?_append_left hq]

/-- One builder more may have one entry point more. -/
theorem entrypoints_append (t : Table) (bs : List Builder) (b : Builder) :
    (assemble t (bs ++ [b])).entrypoints = match t.addresses[b.func]? with
      | some pc => (assemble t bs).entrypoints.insert b.func ⟨pc,
          b.args, b.returns⟩
      | none => (assemble t bs).entrypoints := by
  rw [assemble, List.foldl_append]
  rfl

/-- An entry point is that of a builder whose name is a label. -/
theorem builder_of_entrypoints {name : String} {e : Entrypoint}
    (he : (assemble t bs).entrypoints[name]? = some e) :
    ∃ b ∈ bs, b.func = name ∧ t.addresses[name]? = some e.pc ∧ e.args = b.args
      ∧ e.returns = b.returns := by
  induction bs using List.reverseRecOn with
  | nil =>
      rw [assemble, List.foldl_nil, Std.ExtTreeMap.getElem?_empty] at he
      cases he
  | append_singleton bs c ih =>
      have hcases : (assemble t bs).entrypoints[name]? = some e ∨ c.func = name
          ∧ t.addresses[c.func]? = some e.pc ∧ e.args = c.args
          ∧ e.returns = c.returns := by
        rw [entrypoints_append] at he
        cases hpc : t.addresses[c.func]? with
        | none =>
            rw [hpc] at he
            exact Or.inl he
        | some pc =>
            rw [hpc] at he
            dsimp only at he
            rw [Std.ExtTreeMap.getElem?_insert] at he
            split at he
            · rename_i heq
              cases he
              exact Or.inr ⟨by simpa using heq, rfl, rfl, rfl⟩
            · exact Or.inl he
      rcases hcases with he | ⟨rfl, hrest⟩
      · obtain ⟨b, hb, hrest⟩ := ih he
        exact ⟨b, List.mem_append_left _ hb, hrest⟩
      · exact ⟨c, by simp, rfl, hrest⟩

/-- A builder whose name is a label has an entry point. -/
theorem exists_entrypoints (hb : b ∈ bs) {pc : Int32}
    (hpc : t.addresses[b.func]? = some pc) :
    ∃ e, (assemble t bs).entrypoints[b.func]? = some e := by
  induction bs using List.reverseRecOn with
  | nil => cases hb
  | append_singleton bs c ih =>
      rw [entrypoints_append]
      rcases List.mem_append.mp hb with hb | hb
      · obtain ⟨e, he⟩ := ih hb
        cases t.addresses[c.func]? with
        | none => exact ⟨e, he⟩
        | some pc' =>
            dsimp only
            rw [Std.ExtTreeMap.getElem?_insert]
            split
            · exact ⟨_, rfl⟩
            · exact ⟨e, he⟩
      · obtain rfl := List.mem_singleton.mp hb
        rw [hpc]
        exact ⟨_, Std.ExtTreeMap.getElem?_insert_self⟩

/-- The entry point of a function among functions of other names. -/
theorem entrypoints_assemble (hnd : (bs.map (·.func)).Nodup)
    (hb : b ∈ bs) {pc : Int32} (hpc : t.addresses[b.func]? = some pc) :
    (assemble t bs).entrypoints[b.func]? = some ⟨pc, b.args, b.returns⟩ := by
  obtain ⟨⟨pc', args, returns⟩, he⟩ := exists_entrypoints hb hpc
  obtain ⟨c, hc, hfunc, hpc', rfl, rfl⟩ := builder_of_entrypoints he
  obtain rfl := List.inj_on_of_nodup_map hnd hc hb hfunc
  rw [hpc, Option.some.injEq] at hpc'
  rw [he, hpc']

/-- The code of a linked builder stands in the program behind that of the
builders before it. -/
theorem Resolved.standing (ht : tableOf bs = .ok t) (h : Resolved t 0 bs bs')
    {before behind : List Builder} (hsplit : bs = before ++ b :: behind)
    (hsmall : (assemble t bs').code.length ≤ 2 ^ 30) :
    Standing (assemble t bs').code (before.map (·.code.length)).sum t b := by
  obtain ⟨before', code, behind', rfl, hlens, hcode⟩ := h.split hsplit
  obtain ⟨hsound, hlabels⟩ := sound_of_tableOf ht
  rw [Nat.zero_add] at hcode
  refine ⟨hsmall, fun j x hx => ?_, fun l hl hin => (hsound.address _ _).mpr ?_⟩
  · obtain ⟨y, hy, hres⟩ := resolveCode_getElem? hcode hx
    refine ⟨y, ?_, hres⟩
    rw [code_assemble, ← hlens]
    exact (getElem?_flatMap_code (List.getElem?_eq_some_iff.mp hy).1).trans hy
  · rw [hlabels, mem_labelsOf]
    refine ⟨before, b, behind, hsplit, l, hl, ?_⟩
    rw [addressOf, hin, Int32.ofNat_add]
    rfl

end Link

-- =============================================================== generation

namespace Generator

/-- What a caller is told of a function, and where its code begins. -/
theorem function_spec {names : Names} (h : function m names f = .ok b) :
    ∃ L, Layout.compute f = .ok L ∧ body m f (emptyBuilder f L names) = .ok () b
      ∧ Extends (emptyBuilder f L names) b ∧ ⟨f.name, false, 0⟩ ∈ b.labels := by
  obtain ⟨L, hL, hbody⟩ := function_body h
  obtain ⟨parts⟩ := body_parts hbody
  obtain ⟨taken, hlabelled⟩ := blockLabels_same rfl parts.hlabels
  have hext := blocks_extends parts.hblocks
  rw [hlabelled] at hext
  refine ⟨L, hL, hbody, ⟨hext.code, List.nil_prefix, hext.func⟩, ?_⟩
  exact hext.labels.subset List.mem_cons_self

/-- The builders are named after the functions, in order. -/
theorem Generated.map_func {fs : List Func} {names : Names}
    (h : Generated m fs names bs) : bs.map (·.func) = fs.map (·.name) := by
  induction h with
  | done names => rfl
  | next here _ ih =>
      obtain ⟨L, -, -, hext, -⟩ := function_spec here
      rw [List.map_cons, List.map_cons, ih, hext.func.1]
      rfl

/-- Each function has its builder, behind those of the functions before it. -/
theorem Generated.split {fs : List Func} {names : Names}
    (h : Generated m fs names bs) (hf : f ∈ fs) :
    ∃ before b behind names', bs = before ++ b :: behind
      ∧ function m names' f = .ok b := by
  induction h with
  | done names => cases hf
  | @next f₀ fs names b bs here rest ih =>
      rcases List.mem_cons.mp hf with rfl | hf
      · exact ⟨[], b, bs, names, rfl, here⟩
      · obtain ⟨before, c, behind, names', rfl, hc⟩ := ih hf
        exact ⟨b :: before, c, behind, names', rfl, hc⟩

end Generator

/-- The code of every function stands in the program from its entry point on,
under one table. -/
theorem generate_functions {metadata : Metadata}
    (hnames : (m.functions.map (·.name)).Nodup)
    (hgen : generate m metadata = .ok p) (hsize : p.items.length ≤ 2 ^ 30) :
    ∃ t : Link.Table, ∀ f ∈ m.functions, ∃ L names B base,
      Layout.compute f = .ok L
      ∧ Generator.body m f (Generator.emptyBuilder f L names) = .ok () B
      ∧ Standing p.code base t B ∧ t.addresses[f.name]?
      = some (Int32.ofNat base)
      ∧ p.entrypoints[f.name]?
        = some ⟨Int32.ofNat base, Generator.slotCounts (f.params.map L.slots),
        Generator.slotCounts (f.returns.map Ty.slots)⟩ := by
  obtain ⟨bs, hbs, hgen⟩ := bind_eq_ok.mp hgen
  have hgenerated := Generator.functions_eq_ok.mp hbs
  obtain ⟨hnd, hnamed⟩ := Generator.generated_links hnames hgenerated
  obtain ⟨t, bs', ht, hres, hlink⟩ := link_spec hnd hnamed
  rw [hlink] at hgen
  cases hgen
  refine ⟨t, fun f hf => ?_⟩
  obtain ⟨before, B, behind, names, hsplit, hB⟩ := hgenerated.split hf
  obtain ⟨L, hL, hbody, hext, hlabel⟩ := Generator.function_spec hB
  have hstanding : Standing (Link.assemble t bs').code _ t B :=
    hres.standing ht hsplit
    (le_trans (List.length_filterMap_le _ _) hsize)
  obtain ⟨hname, hargs, hreturns⟩ := hext.func
  obtain ⟨before', code, behind', hsplit', -, -⟩ := hres.split hsplit
  have hnd' : (bs'.map (·.func)).Nodup := by
    rw [hres.map_func, hgenerated.map_func]
    exact hnames
  have hmem : { B with code } ∈ bs' := by
    rw [hsplit']
    exact List.mem_append_right _ List.mem_cons_self
  have hpc : t.addresses[f.name]?
      = some (Int32.ofNat (before.map (·.code.length)).sum) :=
    hstanding.label _ hlabel rfl
  have hentry := Link.entrypoints_assemble hnd' hmem (by rw [hname]; exact hpc)
  dsimp only at hentry
  rw [hname, hargs, hreturns] at hentry
  exact ⟨L, names, B, _, hL, hbody, hstanding, hpc, hentry⟩

/-- The code of a function stands in the program from its entry point on. -/
theorem generate_function {metadata : Metadata}
    (hnames : (m.functions.map (·.name)).Nodup)
    (hgen : generate m metadata = .ok p) (hsize : p.items.length ≤ 2 ^ 30)
    (hf : f ∈ m.functions) : ∃ L names B base t, Layout.compute f = .ok L
      ∧ Generator.body m f (Generator.emptyBuilder f L names) = .ok () B
      ∧ Standing p.code base t B
      ∧ p.entrypoints[f.name]?
        = some ⟨Int32.ofNat base, Generator.slotCounts (f.params.map L.slots),
        Generator.slotCounts (f.returns.map Ty.slots)⟩ := by
  obtain ⟨t, hall⟩ := generate_functions hnames hgen hsize
  obtain ⟨L, names, B, base, hL, hbody, hst, -, hentry⟩ := hall f hf
  exact ⟨L, names, B, base, t, hL, hbody, hst, hentry⟩

end MirBackend.Asm
