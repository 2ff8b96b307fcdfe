/-
Printing a module that was read, and reading it again, gives the module back.

A function is printed from its finished form: its calls name the functions that
were meant, and the types that a statement records stand at its destinations.
The second run therefore reads the same statements with the same turns of calls,
and each name resolves to the function it was taken from. Two things are asked
of the text: that its functions are valid, so that every block has a terminator
to print, and that a value is not written with two types, because only the last
one stays.
-/
import MirBackend.Proofs.Source.Functions
import MirBackend.Proofs.Func.Modules
import MirBackend.Proofs.Func.Validity

namespace MirBackend.Source

open Text
open MirBackend.Module (lookup_of_nodup mem_of_func?)

variable {e : Setting} {c c' c₁ c₂ : Context} {s s' rest : List UInt8}

-- ================================================================ printing

/-- A function with its calls resolved. -/
def resolved (callees : List (FuncId × Signature)) (f : Func) : Func :=
  f.mapBlocks fun b => { b with instrs := b.instrs.map (resolveCall callees) }

/-- The types that are filled in are not printed. -/
theorem text_fillTypes (m : Option Module) (f g : Func)
    (callees : List (FuncId × Signature)) (i : Instr) :
    instrText m f (resolveCall callees (fillTypes g i)) = instrText m f
      (resolveCall callees i) := by
  unfold fillTypes
  split <;> rfl

/-- Instructions with texts are printed, each on its own line behind a tab. -/
theorem instrLines_eq_ok {m : Option Module} {f : Func} {id : BlockId}
    {is : List Instr} {ws : List String}
    (h : is.map (instrText m f) = ws.map some) (n : Nat) :
    (is.zipIdx n).mapM (instrLine m f id)
      = .ok (ws.map fun w => "\t" ++ w ++ "\n") := by
  induction is generalizing ws n with
  | nil =>
      obtain rfl : ws = [] := by simpa using h.symm
      rfl
  | cons i is ih =>
      obtain _ | ⟨w, ws⟩ := ws
      · cases h
      · rw [List.map_cons, List.map_cons, List.cons.injEq] at h
        rw [List.zipIdx_cons, List.mapM_cons, instrLine, h.1, ih h.2]
        rfl

/-- A block is printed as its head, the lines of its instructions and that of
its terminator. Instructions are printed as they are in the module, with types
filled in and calls resolved. -/
theorem blockLines_eq_ok {g : Func} {raw : RawBlock} {b : Block}
    {ws : List String} (n : Nat) (hws : raw.instrs.map e.text = ws.map some)
    (hname : b.name = raw.name)
    (hinstrs : b.instrs = raw.instrs.map fun i =>
      resolveCall e.callees (fillTypes g i))
    (hterm : b.term = some raw.term) :
    blockLines (some e.module) e.func
      (some b, n) = .ok (blockString n raw ws) := by
  have hlines : b.instrs.map (instrText (some e.module) e.func)
      = ws.map some := by
    rw [hinstrs, List.map_map, ← hws]
    exact List.map_congr_left fun i _ => text_fillTypes ..
  rw [blockLines, instrLines_eq_ok hlines, hterm, hname]
  rfl

/-- Blocks are printed in turn, each under its number. -/
theorem blocks_eq_ok {g : Func} {n : Nat} {raw : List RawBlock}
    {ts : List String} (h : BlockTexts e n raw ts)
    {blocks : List (Option Block)}
    (hblocks : blocks.map (·.map fun b => (b.name, b.instrs, b.term)) =
      raw.map fun b => some (b.name,
          b.instrs.map (fun i => resolveCall e.callees (fillTypes g i)),
          some b.term)) :
    (blocks.zipIdx n).mapM (blockLines (some e.module) e.func) = .ok ts := by
  induction h generalizing blocks with
  | nil =>
      obtain rfl : blocks = [] := by simpa using hblocks
      rfl
  | cons hws _ ih =>
      obtain _ | ⟨o, blocks⟩ := blocks
      · cases hblocks
      · rw [List.map_cons, List.map_cons, List.cons.injEq] at hblocks
        obtain ⟨hhead, htail⟩ := hblocks
        obtain _ | b := o
        · cases hhead
        · simp only [Option.map_some, Option.some.injEq, Prod.mk.injEq] at hhead
          rw [List.zipIdx_cons, List.mapM_cons,
            blockLines_eq_ok _ hws hhead.1 hhead.2.1 hhead.2.2, ih htail]
          rfl

-- ==================================================================== body

/-- The body of a function: its entry and its blocks. -/
theorem functionBody_spec {f : Func} (hentry : c.func.entry = 0)
    (h : functionBody c s = .ok ((f, c'), s')) :
    ∃ entry s₁, IsBlockId entry ∧ functionBlocks
      (c.edit fun f => { f with entry }) s₁ = .ok ((f, c'), s') := by
  rw [functionBody] at h
  obtain ⟨o, c₁, t, hlift, h⟩ := read_bind_eq_ok.mp h
  obtain ⟨-, rfl⟩ := lift_eq_ok.mp hlift
  cases o with
  | none =>
      refine ⟨0, t, ⟨by decide, by decide⟩, ?_⟩
      -- no line names the entry, which stays the first block
      have hsame : (c.edit fun f => { f with entry := 0 }) = c := by
        rw [Context.edit, ← hentry]
      rw [hsame]
      exact h
  | some u =>
      simp only [Option.isSome_some, if_true] at h
      obtain ⟨entry, c₁, s₁, hlift, h⟩ := read_bind_eq_ok.mp h
      obtain ⟨hread, rfl⟩ := lift_eq_ok.mp hlift
      exact ⟨entry, s₁, blockId_spec (inPart_eq_ok.mp hread), h⟩

/-- The line of the entry is written if the entry is not the first block. -/
def entryText (entry : BlockId) : String :=
  if entry = 0 then "" else "\tentry " ++ blockText entry ++ "\n"

/-- The body is read again, from the line of the entry on. -/
theorem functionBody_runs {entry : BlockId} {r : List UInt8}
    (hzero : c.func.entry = 0) (hentry : IsBlockId entry)
    (hr : after? (bytesOf "entry") (skipped r) = none)
    (hs : s = 0x0A :: (bytesOf (entryText entry) ++ r)) :
    ∃ t, skipped t = skipped r ∧ functionBody c s = functionBlocks
      (c.edit fun f => { f with entry }) t := by
  rw [functionBody, hs]
  by_cases hfirst : entry = 0
  · subst hfirst
    have hsame : (c.edit fun f => { f with entry := 0 }) = c := by
      rw [Context.edit, ← hzero]
    have hskip : skipped (0x0A :: (bytesOf (entryText 0) ++ r))
        = skipped r := by
      rw [skipped_line, entryText, if_pos rfl, bytesOf_empty]
      rfl
    -- the text of the first block as the entry is empty, and a block does not
    -- begin like that line
    obtain ⟨err, herr⟩ := keyword_fails (t := "entry")
      (s := 0x0A :: (bytesOf (entryText 0) ++ r)) (by
      rw [hskip]
      exact hr)
    refine ⟨_, hskip, ?_⟩
    rw [read_bind_of_ok (lift_eq_ok.mpr ⟨attempt_of_error herr, rfl⟩), hsame]
    rfl
  -- the line that names another entry
  · have htext : bytesOf (entryText entry) ++ r =
        0x09 :: (bytesOf "entry"
          ++ 0x20 :: (bytesOf (blockText entry) ++ 0x0A :: r)) := by
      rw [entryText, if_neg hfirst, bytesOf_append, bytesOf_append,
        show bytesOf "\tentry "
          = 0x09 :: (bytesOf "entry" ++ [0x20]) by decide +kernel,
        show bytesOf "\n" = [0x0A] from bytesOf_ofList _]
      simp only [List.append_assoc, List.cons_append, List.nil_append]
    have hkey :
        attempt (keyword "entry") (0x0A :: (bytesOf (entryText entry) ++ r)) =
        .ok (some (), 0x20 :: (bytesOf (blockText entry) ++ 0x0A :: r)) := by
      refine attempt_of_ok (keyword_takes ?_ (ends_cons (by decide) _))
      rw [skipped_line, htext, skipped_tab]
      exact skipped_name (by decide +kernel) _
    have hblock :
        inPart "entry" blockId
        (0x20 :: (bytesOf (blockText entry) ++ 0x0A :: r)) =
        .ok (entry, 0x0A :: r) :=
      inPart_eq_ok.mpr (blockId_takes hentry
        (by rw [skipped_space, skipped_block]) (ends_cons (by decide) _))
    refine ⟨0x0A :: r, skipped_line r, ?_⟩
    rw [read_bind_of_ok (lift_eq_ok.mpr ⟨hkey, rfl⟩)]
    simp only [Option.isSome_some, if_true]
    rw [read_bind_of_ok (lift_eq_ok.mpr ⟨hblock, rfl⟩)]
    rfl

-- ==================================================================== head

/-- A parameter is read again under its type. -/
theorem param_echo (e : Setting) (j : Nat) {id : ValueId}
    (h : param j c s = .ok ((id, c'), s')) :
    Opens (bytesOf (typedText e.func id)) ∧ Echo e (param j) c c' (· = id)
      (Front (bytesOf (typedText e.func id))) := by
  obtain ⟨⟨id, t⟩, c₁, s₁, hlift, h⟩ := read_bind_eq_ok.mp h
  obtain ⟨hread, rfl⟩ := lift_eq_ok.mp hlift
  obtain ⟨hid, ht⟩ := typedValue_spec (inPart_eq_ok.mp hread)
  obtain ⟨_, c₁, s₁, hnote, h⟩ := read_bind_eq_ok.mp h
  cases hnote
  cases h
  -- the parameter with its type is read back, and its type is noted once more
  have htyped :
      Echo e (liftM (inPart ("param " ++ toString j) typedValue)) c c
      (· = (id, t))
      (Front (bytesOf (valueText id ++ ": " ++ t.text))) :=
    Echo.scan e c fun _ _ hs =>
      inPart_eq_ok.mpr (typedValue_takes hid ht hs.1 hs.2)
  refine ⟨opens_typed e.func id,
    Echo.of_agrees (grows_annotated c id ht.present) fun hagrees => ?_⟩
  refine Echo.imp
    (htyped.seq ((annotate_echo e c id ht.present).seq (Echo.pure e _ id)))
    fun s rest hs => ?_
  rw [typedText_annotated hagrees ht.present] at hs
  exact ⟨rest, hs, rest, rfl, rfl⟩

/-- The type of a result is read again. -/
theorem return_echo (e : Setting) (j : Nat) {t : Ty}
    (h : (liftM (inPart ("return " ++ toString j) type) : Read Ty) c s
      = .ok ((t, c'), s')) :
    Opens (bytesOf t.text) ∧
      Echo e (liftM (inPart ("return " ++ toString j) type)) c c' (· = t)
        (Front (bytesOf t.text)) := by
  obtain ⟨hread, rfl⟩ := lift_eq_ok.mp h
  have ht := type_written (inPart_eq_ok.mp hread)
  exact ⟨ht.opens, Echo.scan e c fun _ _ hs =>
    inPart_eq_ok.mpr (type_takes ht hs.1 hs.2)⟩

-- =============================================================== functions

/-- How a function came about: its name, parameters, results and entry as they
were read, the blocks, the function when its edges were set, and the contexts on
the way. -/
structure Made (c : Context) (f : Func) (c' : Context) where
  name : String
  params : List ValueId
  returns : List Ty
  entry : BlockId
  raw : List RawBlock
  linked : Func
  afterParams : Context
  afterReturns : Context
  afterBlocks : Context
  isName : isName name = true
  isBlockId : IsBlockId entry
  params_eq : ∃ fuel s s',
    itemsUpTo ")" param fuel [] (c.edit fun _ => Func.named name) s =
    .ok ((params, afterParams), s')
  returns_eq : ∃ fuel s s',
    itemsUpTo ")" (fun j => liftM (inPart ("return " ++ toString j) type)) fuel
    []
    afterParams s = .ok ((returns, afterReturns), s')
  blocks_eq : ∃ fuel s s', rawBlocks fuel []
    ((afterReturns.edit fun f => { f with params, returns }).edit fun f =>
      { f with entry }) s =
      .ok ((raw, afterBlocks), s')
  context_eq : c' = afterBlocks.edit (withBlocks raw)
  entered : c'.func.hasBlock c'.func.entry = true
  linked_eq : setTerms c'.func raw.zipIdx = .ok linked
  func_eq : f = linked.mapBlocks fun b =>
    { b with instrs := b.instrs.map (fillTypes linked) }

/-- The context once the head of the function is read. -/
def Made.opened {f : Func} (m : Made c f c') : Context :=
  (m.afterReturns.edit fun f =>
  { f with params := m.params, returns := m.returns }).edit fun f =>
    { f with entry := m.entry }

/-- A setting that can stand where only the growth of the contexts matters. -/
def blankSetting : Setting := ⟨{}, Func.named "", [], by simp⟩

-- The context grows over the parts of a function, from its parameters to its
-- blocks.
theorem Made.params_grows {f : Func} (m : Made c f c') :
    Grows (c.edit fun _ => Func.named m.name) m.afterParams := by
  obtain ⟨fuel, s, s', h⟩ := m.params_eq
  obtain ⟨_, _, _, hecho⟩ :=
    itemsUpTo_echo (fun j c s a c' s' h => param_echo blankSetting j h) _ h
  exact (hecho 0).1

theorem Made.returns_grows {f : Func} (m : Made c f c') :
    Grows m.afterParams m.afterReturns := by
  obtain ⟨fuel, s, s', h⟩ := m.returns_eq
  obtain ⟨_, _, _, hecho⟩ :=
    itemsUpTo_echo (fun j c s a c' s' h => return_echo blankSetting j h) _ h
  exact (hecho 0).1

theorem Made.blocks_grows {f : Func} (m : Made c f c') :
    Grows m.opened m.afterBlocks := by
  obtain ⟨fuel, s, s', h⟩ := m.blocks_eq
  obtain ⟨_, _, _, _, hecho⟩ := rawBlocks_echo blankSetting _ h
  exact (hecho 0 [] .nil).1

/-- The head of a function read: nothing behind it changes it. -/
theorem Made.opened_func {f : Func} (m : Made c f c') : m.opened.func =
    { Func.named m.name with
      params := m.params, returns := m.returns, entry := m.entry, types :=
        m.afterReturns.func.types,
      nextValue := m.afterReturns.func.nextValue } := by
  have hgrows := m.params_grows.trans m.returns_grows
  show { m.afterReturns.func with params := m.params, returns := m.returns, entry := m.entry } = _
  rw [hgrows.frame]
  rfl

/-- All that reading blocks changes of a function are types and the counter; the
blocks themselves come later. -/
theorem Made.afterBlocks_func {f : Func} (m : Made c f c') :
    m.afterBlocks.func =
    { Func.named m.name with
      params := m.params, returns := m.returns, entry := m.entry, types :=
        m.afterBlocks.func.types,
      nextValue := m.afterBlocks.func.nextValue } := by
  rw [m.blocks_grows.frame, m.opened_func]

/-- A function that was read went through all of the stages. -/
theorem function_made {f : Func} (h : function c s = .ok ((f, c'), s')) :
    Nonempty (Made c f c') := by
  obtain ⟨s₁, name, s₂, s₃, params, c₄, s₄, s₅, s₆, returns, c₇, s₇, s₈, -,
      hname, -, hparams, -, -, hreturns, -, h⟩ :=
    function_eq_ok.mp h
  have hgrowsP : Grows (c.edit fun _ => Func.named name) c₄ := by
    obtain ⟨_, _, _, hecho⟩ :=
      itemsUpTo_echo (fun j c s a c' s' h =>
        param_echo blankSetting j h) _ hparams
    exact (hecho 0).1
  have hgrowsR : Grows c₄ c₇ := by
    obtain ⟨_, _, _, hecho⟩ :=
      itemsUpTo_echo (fun j c s a c' s' h =>
        return_echo blankSetting j h) _ hreturns
    exact (hecho 0).1
  -- a new function enters at its first block until a line says otherwise
  have hzero : (c₇.edit fun f => { f with params, returns }).func.entry
      = 0 := by
    show c₇.func.entry = 0
    rw [(hgrowsP.trans hgrowsR).frame]
    rfl
  obtain ⟨entry, t, hentry, hbody⟩ := functionBody_spec hzero h
  obtain ⟨raw, c₉, g, hraw, hcontext, hentered, hset, hf⟩ :=
    functionBlocks_eq_ok.mp hbody
  exact ⟨⟨name, params, returns, entry, raw, g, c₄, c₇, c₉,
    ident_spec (inPart_eq_ok.mp hname), hentry,
    ⟨_, _, _, hparams⟩, ⟨_, _, _, hreturns⟩, ⟨_, _, _, hraw⟩, hcontext,
    hentered, hset, hf⟩⟩

/-- A function made of blocks has these blocks, before their terminators are
set. -/
theorem outline_withBlocks {raw : List RawBlock} (hraw : raw ≠ []) (f : Func) :
    outline (withBlocks raw f) = raw.map fun b =>
      some (b.name, b.instrs, none) := by
  rw [withBlocks, if_neg (by simpa using hraw), outline, List.map_map]
  rfl

/-- The blocks are put in at the end. -/
theorem Made.context_func {f : Func} (m : Made c f c') :
    c'.func = withBlocks m.raw m.afterBlocks.func :=
  congrArg Context.func m.context_eq

/-- Where there are blocks, the finished function has them with their
terminators. -/
theorem Made.linked_spec {f : Func} (m : Made c f c') (hraw : m.raw ≠ []) :
    outline m.linked = m.raw.map (fun b => some (b.name, b.instrs, some b.term))
        ∧ c'.func.SameHeader m.linked := by
  have houtline : outline c'.func = m.raw.map fun b =>
      some (b.name, b.instrs, none) :=
    (congrArg outline m.context_func).trans (outline_withBlocks hraw _)
  exact setTerms_outline [] houtline m.linked_eq

/-- Putting blocks in changes no header. -/
theorem sameHeader_withBlocks (raw : List RawBlock) (f : Func) :
    f.SameHeader (withBlocks raw f) := by
  unfold withBlocks
  split
  · exact .refl f
  · exact ⟨rfl, rfl, rfl, rfl, rfl, rfl⟩

/-- Nor does changing blocks one by one. -/
theorem sameHeader_mapBlocks (f : Func) (g : Block → Block) :
    f.SameHeader (f.mapBlocks g) :=
  ⟨rfl, rfl, rfl, rfl, rfl, rfl⟩

/-- The finished function has the header that was read. -/
theorem Made.header {f : Func} (m : Made c f c') :
    m.afterBlocks.func.SameHeader f := by
  have hcontext : m.afterBlocks.func.SameHeader c'.func := by
    have h := sameHeader_withBlocks m.raw m.afterBlocks.func
    rwa [← m.context_func] at h
  have hlinked : c'.func.SameHeader m.linked := by
    by_cases hraw : m.raw = []
    · have hset := m.linked_eq
      rw [hraw] at hset
      rw [← Except.ok.inj hset]
      exact .refl _
    · exact (m.linked_spec hraw).2
  have hfunc : m.linked.SameHeader f := by
    have h := sameHeader_mapBlocks m.linked fun b =>
      { b with instrs := b.instrs.map (fillTypes m.linked) }
    rwa [← m.func_eq] at h
  exact hcontext.trans (hlinked.trans hfunc)

/-- What reading a function adds to what is noted. -/
structure Noted (c : Context) (f : Func) (c' : Context) : Prop where
  annotations : c.annotations ⊆ c'.annotations
  here : ∀ x ∈ c'.annotations, x ∈ c.annotations ∨ x.1 = f.name
  calls : c.calls.length ≤ c'.calls.length
  typed : (∀ x ∈ c.annotations, x.1 ≠ f.name) →
    ∀ id t, (f.name, id, t) ∈ c'.annotations →
    ∃ t', f.types[id]? = some t' ∧ (f.name, id, t') ∈ c'.annotations

/-- A function has the name that was read for it. -/
theorem Made.name_eq {f : Func} (m : Made c f c') : f.name = m.name := by
  rw [m.header.name, m.afterBlocks_func]
  rfl

/-- No types are written down behind the last block. -/
theorem Made.annotations_eq {f : Func} (m : Made c f c') :
    c'.annotations = m.afterBlocks.annotations := by
  have h := congrArg Context.annotations m.context_eq
  exact h

/-- No calls are noted behind the last block. -/
theorem Made.calls_eq {f : Func} (m : Made c f c') :
    c'.calls = m.afterBlocks.calls := by
  have h := congrArg Context.calls m.context_eq
  exact h

/-- The types noted while the function was read are noted under its name. -/
theorem Made.noted {f : Func} (m : Made c f c') : Noted c f c' := by
  have hannotations := m.annotations_eq
  have hcalls := m.calls_eq
  have hhead := m.params_grows.trans m.returns_grows
  have hbody := m.blocks_grows
  have hopenedName : m.opened.func.name = m.name := by rw [m.opened_func]; rfl
  have hafterName : m.afterBlocks.func.name = m.name := by
    rw [m.afterBlocks_func]; rfl
  refine ⟨?_, fun x hx => ?_, ?_, fun hfresh id t ht => ?_⟩
  · rw [hannotations]
    exact fun x hx => hbody.annotations (hhead.annotations hx)
  · rw [hannotations] at hx
    rcases hbody.here x hx with hx | hx
    · rcases hhead.here x hx with hx | hx
      · exact .inl hx
      · exact .inr (hx.trans m.name_eq.symm)
    · exact .inr (hx.trans (hopenedName.trans m.name_eq.symm))
  · rw [hcalls]
    exact hhead.calls.trans hbody.calls
  · -- nothing is written for the function before it begins
    have hstart : Typed (c.edit fun _ => Func.named m.name) := fun v u hv =>
      absurd m.name_eq.symm (hfresh _ hv)
    have hopened : Typed m.opened := hhead.typed hstart
    have hend :=
      hbody.typed hopened id t
        (by rw [hafterName, ← m.name_eq, ← hannotations]; exact ht)
    rw [hafterName, ← m.name_eq, ← hannotations, ← m.header.types] at hend
    exact hend

/-- A setting in which a function that was read is printed. -/
structure Prints (e : Setting) (f : Func) (c' : Context) : Prop where
  func : e.func = resolved e.callees f
  types : ∀ id t, (f.name, id, t) ∈ c'.annotations → f.typeOf id = t
  calls : c'.calls.length ≤ e.callees.length
  valid : e.func.WellFormed

section

variable {f : Func} (m : Made c f c')

/-- The setting in which the function is printed agrees with what was read of
it. -/
theorem Made.agrees (hp : Prints e f c') : Agrees e m.afterBlocks := by
  have hname : e.func.name = f.name := by rw [hp.func]; rfl
  refine ⟨?_, fun id t ht => ?_, by rw [← m.calls_eq]; exact hp.calls⟩
  · rw [hname, m.header.name]
  · rw [hname, ← m.annotations_eq] at ht
    have h := hp.types id t ht
    rw [hp.func]
    exact h

/-- A valid function has blocks. -/
theorem Made.raw_ne_nil (hp : Prints e f c') : m.raw ≠ [] := by
  intro hraw
  have hlinked : m.linked = c'.func := by
    have hset := m.linked_eq
    rw [hraw] at hset
    exact (Except.ok.inj hset).symm
  have hblocks : c'.func.blocks = [some { name := "entry" }] := by
    rw [m.context_func, withBlocks, if_pos (by rw [hraw]; rfl),
      m.afterBlocks_func]
    rfl
  have hfunc : e.func.blocks = [some { name := "entry" }] := by
    have h := m.func_eq
    rw [hp.func, resolved, h, hlinked]
    show ((c'.func.blocks.map _).map _) = _
    rw [hblocks]
    rfl
  have hblock : e.func.block? 0 = some { name := "entry" } := by
    show (e.func.blocks[0]?).join = _
    rw [hfunc]
    rfl
  exact absurd (hp.valid.blockOk 0 _ hblock).term (by decide)

/-- The blocks of the function are printed as their texts. -/
theorem Made.print_blocks (hp : Prints e f c') {ts : List String}
    (hts : BlockTexts e 0 m.raw ts) :
    e.func.blocks.zipIdx.mapM (blockLines (some e.module) e.func) = .ok ts := by
  refine blocks_eq_ok (g := m.linked) hts ?_
  have houtline := (m.linked_spec (m.raw_ne_nil hp)).1
  have hfunc : e.func.blocks = (m.linked.blocks.map (·.map fun b =>
      { b with instrs := b.instrs.map (fillTypes m.linked) })).map
      (·.map fun b =>
      { b with instrs := b.instrs.map (resolveCall e.callees) }) := by
    have h := congrArg (fun g => (resolved e.callees g).blocks) m.func_eq
    rw [← hp.func] at h
    exact h
  have hmapped :=
    congrArg
      (List.map (Option.map fun x : String × List Instr × Option Terminator =>
    (x.1, x.2.1.map (fun i => resolveCall e.callees (fillTypes m.linked i)),
    x.2.2))) houtline
  rw [outline, List.map_map, List.map_map] at hmapped
  rw [hfunc, List.map_map, List.map_map]
  refine Eq.trans (List.map_congr_left fun o _ => ?_) hmapped
  cases o with
  | none => rfl
  | some b => simp

/-- Neither a block nor the closing brace is taken for an entry. -/
theorem BlockTexts.noEntry {n : Nat} {bs : List RawBlock} {ts : List String}
    (h : BlockTexts e n bs ts) (rest : List UInt8) :
    after? (bytesOf "entry")
    (Source.skipped (ts.flatMap bytesOf ++ 0x7D :: rest)) = none := by
  rw [h.skipped, show bytesOf "entry" = 0x65
    :: bytesOf "ntry" by decide +kernel]
  cases h with
  | nil => exact after?_of_ne (by decide) _ _
  | cons _ _ =>
      rw [List.flatMap_cons, List.append_assoc, bytesOf_blockString, blockText,
        bytesOf_append, bytesOf_bb]
      exact after?_of_ne (by decide) _ _

/-- The printed form of the function up to the end of its last line. -/
def Made.text (ts : List String) (e : Setting) : String :=
  "fn " ++ m.name ++ "(" ++ ", ".intercalate (m.params.map (typedText e.func))
    ++ ") -> ("
    ++ Ty.textOfList m.returns ++ ") \x7b\n" ++ entryText m.entry
      ++ String.join ts ++ "\x7d"

/-- The function is printed as its head, its blocks and the closing brace. -/
theorem Made.print (hp : Prints e f c') {ts : List String}
    (hts : BlockTexts e 0 m.raw ts) :
    funcText (some e.module) e.func = .ok (m.text ts e ++ "\n") := by
  have hheader : m.afterBlocks.func.SameHeader e.func := by
    rw [hp.func]
    exact m.header.trans (sameHeader_mapBlocks ..)
  have hafter := m.afterBlocks_func
  have hname : e.func.name = m.name := by rw [hheader.name, hafter]; rfl
  have hparams : e.func.params = m.params := by rw [hheader.params, hafter]
  have hreturns : e.func.returns = m.returns := by rw [hheader.returns, hafter]
  have hentry : e.func.entry = m.entry := by rw [hheader.entry, hafter]
  rw [funcText, m.print_blocks hp hts]
  show Except.ok (headText e.func ++ entryText e.func.entry
    ++ String.join ts ++ "\x7d\n") = _
  rw [headText, hname, hparams, hreturns, hentry, Made.text,
    show "\x7d\n" = "\x7d" ++ "\n" by decide +kernel]
  simp only [String.append_assoc]

/-- The bytes of the printed form, one piece after the other. -/
theorem Made.bytesOf_text (ts : List String) (e : Setting) (rest : List UInt8) :
    bytesOf (m.text ts e) ++ rest =
    bytesOf "fn" ++ 0x20 :: (bytesOf m.name ++ 0x28
        :: (listed (typedBytes e.func m.params) ++ 0x29 :: 0x20 :: 0x2D ::
      0x3E :: 0x20 :: 0x28 :: (listed (typeBytes m.returns)
          ++ 0x29 :: 0x20 :: 0x7B :: 0x0A ::
        (bytesOf (entryText m.entry)
          ++ (ts.flatMap bytesOf ++ 0x7D :: rest))))) := by
  simp only [Made.text, bytesOf_append, bytesOf_join, bytesOf_intercalate,
    bytesOf_textOfList, List.map_map]
  rw [show bytesOf "fn " = bytesOf "fn" ++ [0x20] by decide +kernel,
    bytesOf_parenOpen, bytesOf_braceClose,
    show bytesOf ") -> (" = [0x29, 0x20, 0x2D, 0x3E, 0x20, 0x28]
      from bytesOf_ofList _,
    show bytesOf ") \x7b\n" = [0x29, 0x20, 0x7B, 0x0A] from bytesOf_ofList _]
  simp only [typedBytes, List.append_assoc, List.cons_append, List.nil_append,
    Function.comp_def]

/-- The blocks that a second run reads make the same function. -/
theorem withBlocks_congr {raw raw₂ : List RawBlock}
    (h : List.Forall₂ SameBlock raw raw₂) (f : Func) :
    withBlocks raw₂ f = withBlocks raw f := by
  have hblocks : raw₂.map freshBlock = raw.map freshBlock := by
    induction h with
    | nil => rfl
    | cons hb _ ih => rw [List.map_cons, List.map_cons, ih, freshBlock,
      freshBlock, hb.name, hb.instrs]
  have hempty : raw₂.isEmpty = raw.isEmpty := by
    cases h <;> rfl
  rw [withBlocks, withBlocks, hblocks, hempty]

/-- What agrees in the end agreed before the blocks, -/
theorem Made.opened_agrees (hp : Prints e f c') : Agrees e m.opened :=
  (m.agrees hp).of_grows m.blocks_grows

/-- and behind the results. -/
theorem Made.returns_agrees (hp : Prints e f c') : Agrees e m.afterReturns :=
  ⟨(m.opened_agrees hp).name, (m.opened_agrees hp).types,
  (m.opened_agrees hp).calls⟩

/-- The function is read again from its printed form. -/
theorem Made.rerun (hp : Prints e f c') :
    ∃ ts, BlockTexts e 0 m.raw ts ∧ ∀ c₂ s rest,
    Renamed e c.calls c₂.calls → skipped s = bytesOf (m.text ts e) ++ rest →
      ∃ c₂', Same e c' c₂' ∧ function c₂ s = .ok ((f, c₂'), rest) := by
  obtain ⟨_, _, _, hparams⟩ := m.params_eq
  obtain ⟨_, hps, hpopens, hpecho⟩ :=
    itemsUpTo_echo (fun j c s a c' s' h => param_echo e j h) _ hparams
  obtain rfl := hps
  obtain ⟨_, _, _, hreturns⟩ := m.returns_eq
  obtain ⟨_, hrs, hropens, hrecho⟩ :=
    itemsUpTo_echo (fun j c s a c' s' h => return_echo e j h) _ hreturns
  obtain rfl := hrs
  obtain ⟨_, _, _, hblocks⟩ := m.blocks_eq
  obtain ⟨_, ts, hbs, hts, hbecho⟩ := rawBlocks_echo e _ hblocks
  obtain rfl := hbs
  refine ⟨ts, hts, fun c₂ s rest hcalls hs => ?_⟩
  rw [m.bytesOf_text] at hs
  generalize hbody : bytesOf (entryText m.entry)
    ++ (ts.flatMap bytesOf ++ 0x7D :: rest) = body at hs
  generalize hreturned : listed (typeBytes m.returns)
    ++ 0x29 :: 0x20 :: 0x7B :: 0x0A :: body =
    returned at hs
  generalize hgiven : listed (typedBytes e.func m.params)
    ++ 0x29 :: 0x20 :: 0x2D :: 0x3E :: 0x20 :: 0x28 :: returned =
    given at hs
  have hfn : keyword "fn" s
      = .ok ((), 0x20 :: (bytesOf m.name ++ 0x28 :: given)) :=
    keyword_takes hs (ends_cons (by decide) _)
  have hname : inPart "function name" ident
      (0x20 :: (bytesOf m.name ++ 0x28 :: given))
      = .ok (m.name, 0x28 :: given) :=
    inPart_eq_ok.mpr (ident_takes m.isName
      (by rw [skipped_space, skipped_name m.isName]) (ends_cons (by decide) _))
  have hopen : token "(" (0x28 :: given) = .ok ((), given) :=
    token_here bytesOf_parenOpen (skipped_of_solid (by decide) _)
  -- the parameters
  have hgivenSkip : skipped given = listed (typedBytes e.func m.params)
      ++ 0x29 :: 0x20 :: 0x2D :: 0x3E :: 0x20 ::
      0x28 :: returned := by
    rw [← hgiven]
    exact skipped_listed (by decide) (by simpa [typedBytes] using hpopens) _
  obtain ⟨_, d₄, hps, hsame₄, hread₄⟩ :=
    (hpecho (given.length + 1)).2
    ((m.returns_agrees hp).of_grows m.returns_grows)
    (c₂.edit fun _ => Func.named m.name) given _ ⟨rfl,
    hcalls⟩ ⟨Nat.lt_succ_self _, hgivenSkip⟩
  rw [hps] at hread₄
  have harrow : token "->" (0x20 :: 0x2D :: 0x3E :: 0x20 :: 0x28 :: returned)
      = .ok ((), 0x20 :: 0x28 :: returned) := by
    refine token_takes ?_
    rw [skipped_space, skipped_of_solid (by decide),
      show bytesOf "->" = [0x2D, 0x3E] from bytesOf_ofList _]
    rfl
  have hopen' : token "(" (0x20 :: 0x28 :: returned) = .ok ((), returned) :=
    token_here bytesOf_parenOpen
      (by rw [skipped_space, skipped_of_solid (by decide)])
  -- the results
  have hreturnedSkip : skipped returned = listed (typeBytes m.returns)
      ++ 0x29 :: 0x20 :: 0x7B ::
      0x0A :: body := by
    rw [← hreturned]
    exact skipped_listed (by decide) (opens_typeBytes hropens) _
  obtain ⟨_, d₇, hrs, hsame₇, hread₇⟩ :=
    (hrecho (returned.length + 1)).2 (m.returns_agrees hp)
    d₄ returned _ hsame₄ ⟨Nat.lt_succ_self _, hreturnedSkip⟩
  rw [hrs] at hread₇
  have hbrace : token "\x7b" (0x20 :: 0x7B :: 0x0A :: body)
      = .ok ((), 0x0A :: body) :=
    token_here bytesOf_braceOpen
      (by rw [skipped_space, skipped_of_solid (by decide)])
  -- the body
  have hsame₈ :
      Same e m.opened
      ((d₇.edit fun f =>
      { f with params := m.params, returns := m.returns }).edit fun f =>
      { f with entry := m.entry }) := by
    refine ⟨?_, hsame₇.calls⟩
    show { d₇.func with params := m.params, returns := m.returns, entry := m.entry } = _
    rw [hsame₇.func]
    rfl
  have hzero :
      (d₇.edit fun f =>
      { f with params := m.params, returns := m.returns }).func.entry = 0 := by
    show d₇.func.entry = 0
    rw [hsame₇.func, (m.params_grows.trans m.returns_grows).frame]
    rfl
  have hnoEntry : after? (bytesOf "entry")
      (skipped (ts.flatMap bytesOf ++ 0x7D :: rest)) = none := hts.noEntry rest
  obtain ⟨t, ht, hrun⟩ := functionBody_runs hzero m.isBlockId hnoEntry
    (congrArg (0x0A :: ·) hbody.symm)
  rw [hts.skipped] at ht
  obtain ⟨raw₂, d₉, hraw, hsame₉, hread₉⟩ :=
    (hbecho (t.length + 1) [] .nil).2 (m.agrees hp) _ t rest hsame₈
    ⟨Nat.lt_succ_self _, ht⟩
  have hfunc : (d₉.edit (withBlocks raw₂)).func = c'.func := by
    show withBlocks raw₂ d₉.func = _
    rw [hsame₉.func, withBlocks_congr hraw, m.context_func]
  refine ⟨d₉.edit (withBlocks raw₂), ⟨hfunc, ?_⟩, ?_⟩
  · rw [m.calls_eq]
    exact hsame₉.calls
  · refine function_eq_ok.mpr ⟨_, m.name, _, given, m.params, d₄, _, _,
      returned, m.returns, d₇, _, _, hfn, hname, hopen,
      hread₄, harrow, hopen', hread₇, hbrace,
        hrun.trans (functionBlocks_eq_ok.mpr ?_)⟩
    refine ⟨raw₂, d₉, m.linked, hread₉, rfl, ?_, ?_, m.func_eq⟩
    · rw [hfunc]
      exact m.entered
    · rw [hfunc]
      exact setTerms_congr hraw m.linked_eq

end

-- ================================================================= modules

/-- The functions of a text in order, each with a name that was not used before
it. -/
inductive Sequence : Module → Context → List Func → Context → Prop where
  | nil {m : Module} {c : Context} : Sequence m c [] c
  | cons {m : Module} {c c₁ c' : Context} {f : Func} {fs : List Func}
      (made : Nonempty (Made c f c₁))
      (fresh : m.lookup f.name = none) (tail : Sequence (m.add f).2 c₁ fs c') :
          Sequence m c (f :: fs) c'

/-- Functions are read one behind the other, each with the context that the one
before left. -/
theorem functions_sequence (fuel : Nat) {m mEnd : Module}
    (h : functions fuel m c s = .ok ((mEnd, c'), s')) :
    ∃ fs, mEnd.functions = m.functions ++ fs ∧ Sequence m c fs c' := by
  induction fuel generalizing m c s with
  | zero =>
      obtain ⟨rfl, rfl, rfl⟩ := read_pure_eq_ok.mp h
      exact ⟨[], (List.append_nil _).symm, .nil⟩
  | succ fuel ih =>
      rw [functions] at h
      obtain ⟨_, c₁, s₁, hskip, h⟩ := read_bind_eq_ok.mp h
      cases hskip
      obtain ⟨left, c₁, s₁, hleft, h⟩ := read_bind_eq_ok.mp h
      cases hleft
      split at h
      · obtain ⟨rfl, rfl, rfl⟩ := read_pure_eq_ok.mp h
        exact ⟨[], (List.append_nil _).symm, .nil⟩
      · obtain ⟨f, c₁, s₁, hf, h⟩ := read_bind_eq_ok.mp h
        split at h
        · obtain ⟨left, c₃, s₃, hleft, h⟩ := read_bind_eq_ok.mp h
          cases h
        · rename_i hfresh
          obtain ⟨fs, hfs, hseq⟩ := ih h
          refine ⟨f :: fs, ?_,
            .cons (function_made hf) (by simpa using hfresh) hseq⟩
          rw [hfs]
          simp [Module.add]

/-- A name is not found if no function has it. -/
theorem lookup_eq_none {m : Module} {n : String} :
    m.lookup n = none ↔ ∀ f ∈ m.functions, f.name ≠ n := by
  rw [Module.lookup, Option.map_eq_none_iff, List.find?_eq_none]
  constructor
  · intro h f hf hn
    obtain ⟨i, hi⟩ := List.mem_iff_getElem?.mp hf
    refine h (f, i) ?_ (by simpa using hn)
    rw [List.mem_reverse, List.mem_zipIdx_iff_getElem?]
    exact hi
  · rintro h ⟨f, i⟩ hmem
    rw [List.mem_reverse, List.mem_zipIdx_iff_getElem?] at hmem
    simpa using h f (List.mem_of_getElem? hmem)

namespace Sequence

variable {m : Module} {fs : List Func}

/-- What is noted for the functions so far is kept. -/
theorem grows (h : Sequence m c fs c') :
    c.annotations ⊆ c'.annotations ∧ c.calls.length ≤ c'.calls.length := by
  induction h with
  | nil => exact ⟨fun _ h => h, Nat.le_refl _⟩
  | cons hmade _ _ ih =>
      obtain ⟨made⟩ := hmade
      exact ⟨fun x hx => ih.1 (made.noted.annotations hx),
        made.noted.calls.trans ih.2⟩

/-- Every function that was read has a name that can be read. -/
theorem isName (h : Sequence m c fs c') :
    ∀ f ∈ fs, Source.isName f.name = true := by
  induction h with
  | nil => simp
  | cons hmade _ _ ih =>
      obtain ⟨made⟩ := hmade
      refine List.forall_mem_cons.mpr ⟨?_, ih⟩
      rw [made.name_eq]
      exact made.isName

/-- No two functions have one name. -/
theorem nodup (h : Sequence m c fs c')
    (hm : (m.functions.map Func.name).Nodup) :
    ((m.functions ++ fs).map Func.name).Nodup := by
  induction h with
  | nil => simpa using hm
  | cons _ hfresh _ ih =>
      have hfresh' := lookup_eq_none.mp hfresh
      have hrest := ih (by
        simp only [Module.add, List.map_append, List.map_cons, List.map_nil]
        rw [List.nodup_append]
        refine ⟨hm, by simp, fun a ha b hb hab => ?_⟩
        obtain ⟨g, hg, rfl⟩ := List.mem_map.mp ha
        exact hfresh' g hg (hab.trans (List.mem_singleton.mp hb)))
      simpa [Module.add] using hrest

end Sequence

/-- No value of a function is written with two types. -/
def Consistent (annotations : List (String × ValueId × Ty)) : Prop :=
  ∀ n v t u, (n, v, t) ∈ annotations → (n, v, u) ∈ annotations → t = u

/-- The setting of one function of a module. -/
def Setting.of (e : Setting) (f : Func) : Setting :=
  { e with func := resolved e.callees f }

/-- Whether callees are renamed does not depend on the function that is printed.
-/
theorem Renamed.of {ks ls : List PendingCall} (h : Renamed e ks ls) (f : Func) :
    Renamed (e.of f) ks ls := by
  induction h with
  | nil => exact .nil
  | cons _ hname hresults ih => exact .cons ih hname hresults

/-- The other way round. -/
theorem Renamed.of_of {f : Func} {ks ls : List PendingCall}
    (h : Renamed (e.of f) ks ls) : Renamed e ks ls := by
  induction h with
  | nil => exact .nil
  | cons _ hname hresults ih => exact .cons ih hname hresults

/-- The printed forms of functions, with a blank line between them. -/
def moduleBytes : List String → List UInt8
  | [] => []
  | [t] => bytesOf t ++ [0x0A]
  | t :: ts => bytesOf t ++ 0x0A :: 0x0A :: moduleBytes ts

/-- What stands behind a function. -/
theorem moduleBytes_cons (t : String) (ts : List String) :
    ∃ rest, moduleBytes (t :: ts) = bytesOf t ++ rest ∧
    skipped rest = skipped (moduleBytes ts)
        ∧ rest.length ≤ (moduleBytes (t :: ts)).length := by
  cases ts with
  | nil => exact ⟨[0x0A], rfl, skipped_line _, by simp [moduleBytes]⟩
  | cons u us =>
      exact ⟨0x0A :: 0x0A :: moduleBytes (u :: us),
        rfl, by rw [skipped_line, skipped_line], by simp [moduleBytes]⟩

/-- The text of a function begins with its keyword. -/
theorem Made.opens_text {f : Func} (m : Made c f c') (ts : List String)
    (e : Setting) : Opens (bytesOf (m.text ts e)) := by
  have h := m.bytesOf_text ts e []
  rw [List.append_nil] at h
  rw [h]
  exact (opens_name (by decide +kernel)).append _

/-- A function that was read is ready to be printed: its types are consistent,
its name is its own, and its calls are those that were noted. -/
theorem Made.prints {f : Func} {m : Module} (made : Made c f c₁)
    (hc : Consistent c'.annotations)
    (hm : ∀ x ∈ c.annotations, ∃ g ∈ m.functions, g.name = x.1)
    (hfresh : m.lookup f.name = none) (hlater : c₁.annotations ⊆ c'.annotations)
    (hcalls : c₁.calls.length ≤ e.callees.length)
    (hvalid : (resolved e.callees f).WellFormed) : Prints (e.of f) f c₁ := by
  refine ⟨rfl, fun id t ht => ?_, hcalls, hvalid⟩
  have hnew : ∀ x ∈ c.annotations, x.1 ≠ f.name := by
    intro x hx heq
    obtain ⟨g, hg, hname⟩ := hm x hx
    exact lookup_eq_none.mp hfresh g hg (hname.trans heq)
  obtain ⟨u, hu, humem⟩ := made.noted.typed hnew id t ht
  rw [Func.typeOf, Std.ExtTreeMap.getD_eq_getD_getElem?, hu, Option.getD_some]
  exact hc _ _ _ _ (hlater humem) (hlater ht)

/-- The functions of a module are read again from their printed forms. -/
theorem Sequence.rerun {m : Module} {fs : List Func} (h : Sequence m c fs c')
    (hc : Consistent c'.annotations)
    (hcalls : c'.calls.length ≤ e.callees.length)
    (hm : ∀ x ∈ c.annotations, ∃ g ∈ m.functions, g.name = x.1)
    (hvalid : ∀ f ∈ fs, (resolved e.callees f).WellFormed) : ∃ ts,
      fs.map (fun f => funcText (some e.module) (resolved e.callees f)) = ts.map
        (fun t => .ok (t ++ "\n")) ∧
      skipped (moduleBytes ts) = moduleBytes ts
          ∧ ∀ turns c₂ s, Renamed e c.calls c₂.calls → s.length < turns →
        skipped s = moduleBytes ts → ∃ c₂', Renamed e c'.calls c₂'.calls ∧
          functions turns m c₂ s = .ok ((⟨m.functions ++ fs⟩, c₂'), []) := by
  induction h with
  | nil =>
      refine ⟨[], rfl, rfl, fun turns c₂ s hrenamed hlen hs =>
        ⟨c₂, hrenamed, ?_⟩⟩
      obtain ⟨k, rfl⟩ : ∃ k, turns = k + 1 := ⟨turns - 1, by omega⟩
      rw [functions, read_bind_of_ok (a := ()) (by rfl),
        read_bind_of_ok (a := skipped s) (by rfl), hs, List.append_nil]
      rfl
  | @cons m c c₁ c' f fs hmade hfresh hseq ih =>
      obtain ⟨made⟩ := hmade
      have hgrows := hseq.grows
      have hprints : Prints (e.of f) f c₁ :=
        made.prints hc hm hfresh hgrows.1 (hgrows.2.trans hcalls)
        (hvalid f List.mem_cons_self)
      obtain ⟨bs, hbs, hrun⟩ := made.rerun hprints
      obtain ⟨ts, hts, hskip, hmore⟩ := ih hc hcalls (fun x hx => by
        rcases made.noted.here x hx with hx | hx
        · obtain ⟨g, hg, hname⟩ := hm x hx
          exact ⟨g, List.mem_append_left _ hg, hname⟩
        · exact ⟨f, List.mem_append_right _ List.mem_cons_self, hx.symm⟩)
        (fun g hg => hvalid g (List.mem_cons_of_mem _ hg))
      obtain ⟨rest, hrest, hrestSkip, hrestLen⟩ :=
        moduleBytes_cons (made.text bs (e.of f)) ts
      have hopens : Opens (moduleBytes (made.text bs (e.of f) :: ts)) := by
        rw [hrest]
        exact (made.opens_text bs (e.of f)).append rest
      refine ⟨made.text bs (e.of f) :: ts, ?_, hopens.skipped,
        fun turns c₂ s hrenamed hlen hs => ?_⟩
      · rw [List.map_cons, List.map_cons, hts]
        exact congrArg (· :: _) (made.print hprints hbs)
      · obtain ⟨k, rfl⟩ : ∃ k, turns = k + 1 := ⟨turns - 1, by omega⟩
        obtain ⟨c₃, hsame, hread⟩ :=
          hrun c₂ (skipped s) rest (hrenamed.of f)
            (by rw [hs, hopens.skipped, hrest])
        have hshorter := skipped_length_le s
        have hpos := (made.opens_text bs (e.of f)).length_pos
        rw [hs, hrest, List.length_append] at hshorter
        obtain ⟨c₂', hrenamed', hread'⟩ :=
          hmore k c₃ rest hsame.calls.of_of (by omega)
            (by rw [hrestSkip, hskip])
        refine ⟨c₂', hrenamed', ?_⟩
        have hnonempty : (skipped s).isEmpty = false := by
          rw [hs]
          obtain ⟨b, w, hw, -⟩ := hopens.exists_cons
          rw [hw]
          rfl
        rw [functions, read_bind_of_ok (a := ()) (by rfl),
          read_bind_of_ok (a := skipped s) (by rfl), hnonempty]
        simp only [Bool.false_eq_true, if_false]
        rw [read_bind_of_ok hread, hfresh]
        simpa [Module.add] using hread'

-- =================================================================== calls

/-- A call that is resolved leads to a function of the module, with its
signature and as many results. -/
theorem resolve_spec {m : Module} {k : PendingCall} {x : FuncId × Signature}
    (h : k.resolve m = .ok x) :
    ∃ g, m.func? x.1 = some g ∧ x.2 = g.signature
        ∧ ¬(k.results ≠ 0 ∧ k.results ≠ g.returns.length) := by
  unfold PendingCall.resolve at h
  split at h
  · cases h
  · split at h
    · cases h
    · split at h
      · cases h
      · rename_i hg hresults
        cases h
        exact ⟨_, hg, rfl, hresults⟩

/-- A call that names its function means it. -/
theorem resolve_named {m : Module} (hm : (m.functions.map Func.name).Nodup)
    {k l : PendingCall} {x : FuncId × Signature} (h : k.resolve m = .ok x)
    {g : Func} (hg : m.func? x.1 = some g) (hname : l.name = g.name)
    (hresults : l.results = k.results) : l.resolve m = .ok x := by
  obtain ⟨g', hg', hsig, hcount⟩ := resolve_spec h
  rw [hg] at hg'
  cases hg'
  have hlookup : m.lookup l.name = some x.1 := by
    rw [hname]
    exact lookup_of_nodup hm hg
  unfold PendingCall.resolve
  rw [hlookup]
  simp only [Option.orElse_some, hg]
  rw [hresults, if_neg hcount, ← hsig]

/-- Resolving calls leaves every function at its place. -/
theorem func?_resolved {m : Module} {callees : List (FuncId × Signature)}
    {id : FuncId} {g : Func} (h : m.func? id = some g) :
    Module.func? ⟨m.functions.map (resolved callees)⟩ id
        = some (resolved callees g) := by
  match id with
  | .negSucc _ => cases h
  | .ofNat i =>
      have hi : m.functions[i]? = some g := h
      show (m.functions.map (resolved callees))[i]? = _
      rw [List.getElem?_map, hi]
      rfl

/-- A callee is printed by its name, also once calls are resolved. -/
theorem calleeText_resolved {m : Module} {callees : List (FuncId × Signature)}
    {id : FuncId} {g : Func} (h : m.func? id = some g) :
    calleeText (some ⟨m.functions.map (resolved callees)⟩) id = g.name := by
  rw [calleeText, Option.bind_some, func?_resolved h]
  rfl

/-- The calls of a second run mean the functions that the first meant. -/
theorem Renamed.resolve {m : Module} (hm : (m.functions.map Func.name).Nodup)
    (he : e.module = ⟨m.functions.map (resolved e.callees)⟩)
    {ks ls : List PendingCall} (h : Renamed e ks ls)
    {xs : List (FuncId × Signature)}
    (hxs : ks.reverse.mapM (·.resolve m) = .ok xs) (hahead : xs <+: e.callees) :
    ls.reverse.mapM (·.resolve m) = .ok xs := by
  induction h generalizing xs with
  | nil => exact hxs
  | @cons k l ks ls htail hname hresults ih =>
      rw [List.reverse_cons, List.mapM_append, bind_eq_ok] at hxs
      obtain ⟨ys, hys, hxs⟩ := hxs
      obtain ⟨zs, hzs, hxs⟩ := bind_eq_ok.mp hxs
      cases hxs
      rw [List.mapM_cons, bind_eq_ok] at hzs
      obtain ⟨x, hx, hzs⟩ := hzs
      cases hzs
      have hlen : ys.length = ks.length := by
        rw [← (mapM_eq_ok.mp hys).length_eq, List.length_reverse]
      obtain ⟨g, hg, -⟩ := resolve_spec hx
      have hat : e.callees[ks.length]? = some x := by
        obtain ⟨more, hmore⟩ := hahead
        rw [← hmore, ← hlen]
        simp
      have hcallee : l.name = g.name := by
        rw [hname, Setting.callee, List.getD_eq_getElem?_getD, hat,
          Option.getD_some, he]
        exact calleeText_resolved hg
      rw [List.reverse_cons, List.mapM_append,
        ih hys ((List.prefix_append _ _).trans hahead), List.mapM_cons,
        resolve_named hm hx hg hcallee hresults]
      rfl

/-- What is resolved was noted. -/
theorem exists_resolve {m : Module} {ks : List PendingCall}
    {xs : List (FuncId × Signature)}
    (h : List.Forall₂ (fun (k : PendingCall) x => k.resolve m = .ok x) ks xs)
    {x : FuncId × Signature} (hx : x ∈ xs) :
    ∃ k : PendingCall, k.resolve m = .ok x := by
  induction h with
  | nil => cases hx
  | cons hk _ ih =>
      rcases List.mem_cons.mp hx with rfl | hx
      · exact ⟨_, hk⟩
      · exact ih hx

-- ============================================================== round trip

/-- The types that a text writes for values, with the functions and the
values. -/
def annotationsOf (input : List UInt8) : List (String × ValueId × Ty) :=
  match functions (input.length + 1) {} { func := Func.named "" } input with
  | .ok ((_, c), _) => c.annotations
  | .error _ => []

/-- The printed module is the texts of its functions with an empty line between
them. -/
theorem bytesOf_moduleText (ts : List String) :
    bytesOf ("\n".intercalate (ts.map (· ++ "\n"))) = moduleBytes ts := by
  have hline : bytesOf "\n" = [0x0A] := bytesOf_ofList _
  match ts with
  | [] => exact bytesOf_empty
  | [t] =>
      rw [List.map_singleton, String.intercalate_singleton,
        bytesOf_append, hline]
      rfl
  | t :: u :: ts =>
      have hmore := bytesOf_moduleText (u :: ts)
      rw [List.map_cons] at hmore
      rw [List.map_cons, List.map_cons, String.intercalate_cons_cons,
        bytesOf_append, bytesOf_append, bytesOf_append, hmore, hline]
      simp only [moduleBytes, List.append_assoc,
        List.cons_append, List.nil_append]

/-- A text whose functions are valid and that writes one type for each value:
the module it stands for can be printed, and the printed text stands for the
same module. -/
theorem readModule_moduleText {input : List UInt8} {m : Module}
    (h : readModule input = .ok m)
    (hvalid : ∀ f ∈ m.functions, f.validate = .ok ())
    (hc : Consistent (annotationsOf input)) :
    ∃ text, moduleText m = .ok text ∧ readModule (bytesOf text) = .ok m := by
  rw [readModule, bind_eq_ok] at h
  obtain ⟨⟨⟨raw, c⟩, s⟩, hread, h⟩ := h
  obtain ⟨callees, hcallees, h⟩ := bind_eq_ok.mp h
  obtain rfl : m = ⟨raw.functions.map (resolved callees)⟩ :=
    (Except.ok.inj h).symm
  have hannotations : annotationsOf input = c.annotations := by
    rw [annotationsOf, hread]
  rw [hannotations] at hc
  obtain ⟨fs, hfs, hseq⟩ := functions_sequence _ hread
  obtain rfl : raw.functions = fs := by simpa using hfs
  have hnodup : (raw.functions.map Func.name).Nodup := by
    simpa using hseq.nodup (by simp)
  have hforall := mapM_eq_ok.mp hcallees
  have hlength : callees.length = c.calls.length := by
    rw [← hforall.length_eq, List.length_reverse]
  have hnamed : ∀ turn < callees.length,
      isName (calleeText (some ⟨raw.functions.map (resolved callees)⟩)
      (callees.getD turn (turn, {})).1) = true := by
    intro turn hturn
    rw [List.getD_eq_getElem _ _ hturn]
    obtain ⟨k, hk⟩ := exists_resolve hforall (List.getElem_mem hturn)
    obtain ⟨g, hg, -⟩ := resolve_spec hk
    rw [calleeText_resolved hg]
    exact hseq.isName g (mem_of_func? hg)
  let e : Setting := ⟨⟨raw.functions.map (resolved callees)⟩,
    Func.named "", callees, hnamed⟩
  have hwell : ∀ f ∈ raw.functions, (resolved callees f).WellFormed :=
    fun f hf =>
    Func.validate_eq_ok_iff.mp (hvalid _ (List.mem_map_of_mem hf))
  obtain ⟨ts, hts, hskip, hrun⟩ :=
    hseq.rerun (e := e) hc (Nat.le_of_eq hlength.symm) (by simp) hwell
  refine ⟨"\n".intercalate (ts.map (· ++ "\n")), ?_, ?_⟩
  · have hprinted :
        List.Forall₂ (fun f t =>
        funcText (some ⟨raw.functions.map (resolved callees)⟩)
        (resolved callees f) =
        .ok (t ++ "\n")) raw.functions ts := by
      rw [← List.forall₂_eq_eq_eq] at hts
      exact List.forall₂_map_right_iff.mp (List.forall₂_map_left_iff.mp hts)
    have htexts : (raw.functions.map (resolved callees)).mapM
        (fun f => mapError (PrintError.inFunc f.name)
        (funcText (some ⟨raw.functions.map (resolved callees)⟩) f))
        = .ok (ts.map (· ++ "\n")) := by
      rw [mapM_eq_ok, List.forall₂_map_left_iff, List.forall₂_map_right_iff]
      refine hprinted.imp fun f t hf => ?_
      rw [hf]
      rfl
    rw [moduleText, htexts]
    rfl
  · obtain ⟨c₂, hrenamed, hread₂⟩ :=
      hrun ((moduleBytes ts).length + 1) { func := Func.named "" }
        (moduleBytes ts) .nil
      (Nat.lt_succ_self _) hskip
    rw [List.nil_append] at hread₂
    rw [bytesOf_moduleText, readModule, hread₂, ok_bind]
    dsimp only
    rw [hrenamed.resolve hnodup rfl hcallees (List.prefix_refl callees)]
    rfl

/-- One type for each value is enough. -/
theorem consistent_of_nodup {annotations : List (String × ValueId × Ty)}
    (h : (annotations.map fun x => (x.1, x.2.1)).Nodup) :
    Consistent annotations := by
  intro n v t u ht hu
  have heq := List.inj_on_of_nodup_map h ht hu rfl
  exact congrArg (·.2.2) heq

/-- A text with a call by number to a function further down, a named block and
several statements to a line. -/
def sampleText : List UInt8 := bytesOf
  "fn f(%0: felt) -> (felt) \x7b bb0 start: %1: felt = call @1(%0, true) return %1 \x7d fn g(%2: felt, %3: bool) -> (felt) \x7b bb0: return %2\n\x7d"

/-- Two functions that call one another, with destinations, a phi and a branch.
-/
theorem readModule_moduleText_sample : ∃ m, readModule sampleText = .ok m
    ∧ m.functions.length = 2 ∧
    ∃ text, moduleText m = .ok text ∧ readModule (bytesOf text) = .ok m := by
  have hread :
      ((readModule sampleText).toOption.any fun m =>
      decide (m.functions.length = 2)
      && m.functions.all fun f => f.validate.isOk) = true := by decide +kernel
  have htypes :
      ((annotationsOf sampleText).map fun x => (x.1, x.2.1)).Nodup := by
        decide +kernel
  cases h : readModule sampleText with
  | error err =>
      rw [h] at hread
      cases hread
  | ok m =>
      rw [h, Except.toOption, Option.any_some, Bool.and_eq_true,
        decide_eq_true_eq, List.all_eq_true] at hread
      refine ⟨m, rfl, hread.1,
        readModule_moduleText h (fun f hf => ?_) (consistent_of_nodup htypes)⟩
      have hok := hread.2 f hf
      cases hv : f.validate with
      | ok u => rfl
      | error err =>
          rw [hv] at hok
          cases hok

end MirBackend.Source
