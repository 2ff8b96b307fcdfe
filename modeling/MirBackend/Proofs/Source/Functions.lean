/-
Blocks and functions are read again from their printed form.

The lines of a block are read one after the other, then the blocks up to the
closing brace. Where the terminators stood in the input is all that a second run
reads differently, and nothing that is built from the blocks depends on it. The
function is put together from its head and its blocks by the same edits both
times.
-/
import MirBackend.Proofs.Source.Statements
import MirBackend.Proofs.Func.Edges

namespace MirBackend.Source

open Text

variable {e : Setting} {c c' c₁ c₂ : Context} {s s' rest : List UInt8}

-- =================================================================== lines

/-- Lines with a tabulator before and a line end behind them. -/
def lineBytes (ws : List String) : List UInt8 :=
  ws.flatMap fun w => 0x09 :: (bytesOf w ++ [0x0A])

/-- The lines of a block up to the end of the last, which is that of its
terminator. -/
def bodyBytes (ws : List String) (t : Terminator)
    (rest : List UInt8) : List UInt8 :=
  lineBytes ws ++ 0x09 :: (bytesOf (termText t) ++ rest)

/-- An instruction stands behind a tab and ends its line. -/
theorem bodyBytes_cons (w : String) (ws : List String) (t : Terminator)
    (rest : List UInt8) :
    bodyBytes (w :: ws) t rest
        = 0x09 :: (bytesOf w ++ 0x0A :: bodyBytes ws t rest) := by
  simp only [bodyBytes, lineBytes, List.flatMap_cons, List.append_assoc,
    List.cons_append, List.nil_append]

/-- What can be read of a statement with a padding behind it. -/
theorem skipped_padded {pad : String} (hpad : pad = "" ∨ pad = " ")
    (r : List UInt8) : skipped (bytesOf pad ++ r) = skipped r := by
  rcases hpad with rfl | rfl
  · rw [bytesOf_empty]
    rfl
  · rw [show bytesOf " " = [0x20] from bytesOf_ofList _]
    exact skipped_space r

/-- A line ends where the next one begins with an item. -/
theorem lineEnd_of_opens {r : List UInt8} (h : Opens (skipped r)) :
    LineEnd (0x0A :: r) :=
  ⟨r, rfl, h.after? (.inr (.inl rfl))⟩

/-- The statements of a block are read again, but for the place of the
terminator. -/
theorem statements_echo (e : Setting) (fuel : Nat) {is : List Instr}
    {x : List Instr × Terminator × List UInt8}
    (h : statements fuel is c s = .ok ((x, c'), s')) :
    ∃ news ws, x.1 = is ++ news ∧ news.map e.text = ws.map some ∧
      (∀ rest, Opens (skipped (bodyBytes ws x.2.1 rest))) ∧
      ∀ turns, Echo e (statements turns is) c c'
        (fun y => y.1 = x.1 ∧ y.2.1 = x.2.1) fun s rest =>
        s.length < turns ∧ LineEnd rest ∧ skipped s = skipped
          (bodyBytes ws x.2.1 rest) := by
  induction fuel generalizing is c s with
  | zero => cases h
  | succ fuel ih =>
      rw [statements] at h
      obtain ⟨left, c₁, s₁, hleft, h⟩ := read_bind_eq_ok.mp h
      cases hleft
      obtain ⟨st, c₁, s₁, hst, h⟩ := read_bind_eq_ok.mp h
      obtain ⟨w, pad, hpad, htext, hopens, hecho⟩ := statement_echo e hst
      -- a terminator ends the block, an instruction is added and the loop goes
      -- on
      cases st with
      | inr t =>
          cases h
          obtain rfl : pad = "" := by
            rcases hpad with hpad | ⟨-, i, hi⟩
            · exact hpad
            · cases hi
          obtain rfl : termText t = w := by simpa [Setting.line] using htext
          refine ⟨[], [], (List.append_nil _).symm, rfl,
            fun rest => ?_, fun turns => ?_⟩
          · show Opens (skipped (0x09 :: (bytesOf (termText t) ++ rest)))
            rw [skipped_tab, (hopens.append rest).skipped]
            exact hopens.append rest
          · refine ⟨hecho.1, fun hagrees c₂ s rest hsame hs => ?_⟩
            obtain ⟨k, rfl⟩ : ∃ k, turns = k + 1 := ⟨turns - 1, by omega⟩
            obtain ⟨-, hend, hs⟩ := hs
            have hfront : skipped s = bytesOf (termText t) ++ rest := by
              rw [hs]
              show skipped (0x09 :: (bytesOf (termText t) ++ rest)) = _
              rw [skipped_tab, (hopens.append rest).skipped]
            obtain ⟨_, c₂', rfl, hsame', hread⟩ :=
              hecho.2 hagrees c₂ s rest hsame
              ⟨⟨rest, by rw [bytesOf_empty]; rfl, hend⟩, hfront⟩
            refine ⟨(is, t, skipped s), c₂', ⟨rfl, rfl⟩, hsame', ?_⟩
            rw [statements, read_bind_of_ok (a := s) (by rfl),
              read_bind_of_ok hread]
            rfl
      | inl i =>
          obtain ⟨news, ws, hnews, hws, hbody, hmore⟩ := ih h
          have hpadding : pad = "" ∨ pad = " " := hpad.imp_right And.left
          refine ⟨i :: news, (w ++ pad) :: ws, by rw [hnews]; simp, ?_,
            fun rest => ?_, fun turns => ?_⟩
          · rw [List.map_cons, List.map_cons, hws]
            exact congrArg (· :: _) htext
          · rw [bodyBytes_cons, skipped_tab, bytesOf_append, List.append_assoc,
              (hopens.append _).skipped]
            exact hopens.append _
          · refine ⟨hecho.1.trans (hmore 0).1,
              fun hagrees c₂ s rest hsame hs => ?_⟩
            obtain ⟨k, rfl⟩ : ∃ k, turns = k + 1 := ⟨turns - 1, by omega⟩
            obtain ⟨hlen, hend, hs⟩ := hs
            have hfront : skipped s = bytesOf w
                ++ (bytesOf pad ++ 0x0A :: bodyBytes ws x.2.1 rest) := by
              rw [hs, bodyBytes_cons, skipped_tab, bytesOf_append,
                List.append_assoc, (hopens.append _).skipped]
            have hline : LineEnd (0x0A :: bodyBytes ws x.2.1 rest) :=
              lineEnd_of_opens (hbody rest)
            obtain ⟨st, c₃, rfl, hsame', hread⟩ :=
              hecho.2 (hagrees.of_grows (hmore 0).1) c₂ s _ hsame
              ⟨⟨_, rfl, hline⟩, hfront⟩
            have hshorter := skipped_length_le s
            have hpos := hopens.length_pos
            rw [hfront, List.length_append] at hshorter
            obtain ⟨y, c₂', hy, hsame'', hread'⟩ := (hmore k).2 hagrees c₃
              (bytesOf pad ++ 0x0A :: bodyBytes ws x.2.1 rest) rest hsame'
              ⟨by omega, hend, by rw [skipped_padded hpadding, skipped_line]⟩
            refine ⟨y, c₂', hy, hsame'', ?_⟩
            rw [statements, read_bind_of_ok (a := s) (by rfl),
              read_bind_of_ok hread]
            exact hread'

-- ================================================================== blocks

/-- The same block, read in another place. -/
structure SameBlock (a b : RawBlock) : Prop where
  name : b.name = a.name
  instrs : b.instrs = a.instrs
  term : b.term = a.term

/-- The printed form of a block with the given lines. -/
def blockString (id : BlockId) (b : RawBlock) (ws : List String) : String :=
  blockText id ++ " " ++ b.name ++ ":\n" ++ String.join
    (ws.map fun w => "\t" ++ w ++ "\n") ++ "\t" ++ termText b.term ++ "\n"

/-- The bytes of joined texts. -/
theorem bytesOf_join (ws : List String) :
    bytesOf (String.join ws) = ws.flatMap bytesOf := by
  have hfold : ∀ (ws : List String) (acc : String),
      bytesOf (ws.foldl (· ++ ·) acc) = bytesOf acc ++ ws.flatMap bytesOf := by
    intro ws
    induction ws with
    | nil => simp
    | cons w ws ih =>
        intro acc
        rw [List.foldl_cons, ih, bytesOf_append, List.flatMap_cons,
          List.append_assoc]
  have := hfold ws ""
  rwa [bytesOf_empty, List.nil_append] at this

/-- The printed form of a block, taken apart. -/
theorem bytesOf_blockString (id : BlockId) (b : RawBlock) (ws : List String)
    (rest : List UInt8) :
    bytesOf (blockString id b ws) ++ rest = bytesOf
      (blockText id) ++ 0x20 :: (bytesOf b.name ++ 0x3A :: 0x0A ::
      bodyBytes ws b.term (0x0A :: rest)) := by
  simp only [blockString, bytesOf_append, bytesOf_join, List.flatMap_map]
  rw [show bytesOf " " = [0x20] from bytesOf_ofList _,
    show bytesOf ":\n" = [0x3A, 0x0A] from bytesOf_ofList _,
    show bytesOf "\t" = [0x09] from bytesOf_ofList _, show bytesOf "\n" = [0x0A]
      from bytesOf_ofList _]
  simp only [bodyBytes, lineBytes, List.append_assoc,
    List.cons_append, List.nil_append]

/-- The name of a block, if it has one. Where it has none, the blank before it
is not passed over. -/
theorem blockName_echo (e : Setting) (c : Context) {o : Option String}
    (h : attempt ident s = .ok (o, s')) :
    Echo e (liftM (attempt ident)) c c (· = o) fun s rest => ∃ r,
      s = 0x20 :: (bytesOf (o.getD "") ++ 0x3A :: r) ∧
      rest = if o.isNone then 0x20 :: 0x3A :: r else 0x3A :: r := by
  refine Echo.scan e c fun t rest ht => ?_
  obtain ⟨r, rfl, rfl⟩ := ht
  cases o with
  | none =>
      rw [Option.getD_none, bytesOf_empty]
      refine attempt_of_error (e := ⟨0x3A :: r, .identExpected⟩) ?_
      rw [ident_eq, List.nil_append, skipped_space,
        skipped_of_solid (by decide)]
      rfl
  | some n =>
      have hname := attempt_ident_spec h
      exact attempt_of_ok (ident_takes hname
        (by rw [skipped_space]; exact skipped_name hname _)
        (ends_cons (by decide) _))

/-- A block is read again from its printed form, with the same name, the same
instructions and the same terminator. -/
theorem rawBlock_echo (e : Setting) {want : BlockId} {b : RawBlock}
    (h : rawBlock want c s = .ok ((b, c'), s')) :
    ∃ ws, b.instrs.map e.text = ws.map some ∧
      Echo e (rawBlock want) c c' (SameBlock b) fun s rest =>
        ∃ r, rest = 0x0A :: r ∧ LineEnd rest ∧ skipped s = bytesOf
          (blockString want b ws) ++ r := by
  rw [rawBlock] at h
  obtain ⟨left, c₁, s₁, hleft, h⟩ := read_bind_eq_ok.mp h
  cases hleft
  obtain ⟨id, c₁, s₁, hlift, h⟩ := read_bind_eq_ok.mp h
  obtain ⟨hid, rfl⟩ := lift_eq_ok.mp hlift
  have hblock := blockId_spec (inPart_eq_ok.mp hid)
  by_cases hwant : id = want
  · subst hwant
    simp only [ne_eq, not_true_eq_false, if_false] at h
    obtain ⟨o, c₁, s₁, hlift, h⟩ := read_bind_eq_ok.mp h
    obtain ⟨ho, rfl⟩ := lift_eq_ok.mp hlift
    obtain ⟨_, c₁, s₁, hlift, h⟩ := read_bind_eq_ok.mp h
    obtain ⟨-, rfl⟩ := lift_eq_ok.mp hlift
    obtain ⟨⟨is, t, here⟩, c₁, s₁, hbody, h⟩ := read_bind_eq_ok.mp h
    cases h
    obtain ⟨n, c₁, s₁, hturns, hbody⟩ :=
      read_bind_eq_ok.mp (readInPart_eq_ok.mp hbody)
    cases hturns
    obtain ⟨news, ws, hnews, hws, -, hecho⟩ := statements_echo e _ hbody
    obtain rfl : is = news := hnews
    refine ⟨ws, hws, ?_⟩
    -- the parts of a block: its label, its name if it has one, and its
    -- statements
    have hlabel : Echo e (liftM (inPart "block label" blockId)) c c (· = id)
        (Front (bytesOf (blockText id))) :=
      Echo.scan e c fun _ _ hs =>
        inPart_eq_ok.mpr (blockId_takes hblock hs.1 hs.2)
    have hname := blockName_echo e c ho
    -- all that stands behind the label
    have hrest : Echo e (do
        let name := (← attempt ident).getD ""
        token ":"
        let x ← Read.inPart ("block " ++ blockText id)
          (do statements (← turns) [])
        return ⟨name, x.1, x.2.1, x.2.2⟩ : Read RawBlock) c c'
          (SameBlock ⟨o.getD "", is, t, here⟩) fun s rest =>
        LineEnd rest ∧ s = 0x20
          :: (bytesOf (o.getD "") ++ 0x3A :: 0x0A :: bodyBytes ws t rest) := by
      refine Echo.imp
        (hname.seq ((token_echo e c bytesOf_colon).seq
        ((Echo.inPart (Echo.turns fun n =>
        (hecho n).imp (V := fun s rest => s.length < n ∧ LineEnd rest
          ∧ s = 0x0A :: bodyBytes ws t rest)
          fun s rest hs => ?_)).bind (.refl _) fun y hy =>
          (?_ : Echo e _ _ _ _ fun s rest => s = rest))))
        fun s rest hs => ?_
      · rw [hs.2.2, skipped_line] at *
        exact ⟨hs.1, hs.2.1, rfl⟩
      · refine ⟨.refl _, fun _ c₂ s rest hsame hs =>
          ⟨⟨o.getD "", y.1, y.2.1, y.2.2⟩, c₂, ⟨rfl, hy.1, hy.2⟩, hsame, ?_⟩⟩
        rw [hs]
        rfl
      · obtain ⟨hend, rfl⟩ := hs
        refine ⟨_, ⟨_, rfl, rfl⟩, 0x0A :: bodyBytes ws t rest, ?_,
          _, ⟨hend, rfl⟩, rfl⟩
        split
        · rw [skipped_space, skipped_of_solid (by decide)]
        · exact skipped_of_solid (by decide) _
    refine Echo.imp (Echo.left fun start =>
      hlabel.seq (?_ : Echo e _ c c' _ fun s rest =>
      LineEnd rest ∧ s = 0x20
        :: (bytesOf (o.getD "") ++ 0x3A :: 0x0A :: bodyBytes ws t rest)))
        fun s rest hs => ?_
    · simp only [ne_eq, not_true_eq_false, if_false]
      exact hrest
    · obtain ⟨r, rfl, hend, hs⟩ := hs
      rw [bytesOf_blockString] at hs
      exact ⟨_, ⟨hs, ends_cons (by decide) _⟩, hend, rfl⟩
  · simp only [ne_eq, hwant, not_false_eq_true, if_true] at h
    cases h

/-- The printed forms of blocks with numbers from `n` on. -/
inductive BlockTexts (e : Setting) : Nat → List RawBlock →
    List String → Prop where
  | nil {n : Nat} : BlockTexts e n [] []
  | cons {n : Nat} {b : RawBlock} {bs : List RawBlock} {ws ts : List String}
      (lines : b.instrs.map e.text = ws.map some)
      (tail : BlockTexts e (n + 1) bs ts) :
      BlockTexts e n (b :: bs) (blockString n b ws :: ts)

/-- A block begins with its id. -/
theorem opens_blockString (id : BlockId) (b : RawBlock) (ws : List String)
    (r : List UInt8) : Opens (bytesOf (blockString id b ws) ++ r) := by
  rw [bytesOf_blockString, blockText, bytesOf_append, bytesOf_bb]
  exact opens_cons (by decide) _

/-- What follows the lines of a block: another block or the closing brace. -/
theorem BlockTexts.lineEnd {n : Nat} {bs : List RawBlock} {ts : List String}
    (h : BlockTexts e n bs ts) (rest : List UInt8) :
    LineEnd (0x0A :: (ts.flatMap bytesOf ++ 0x7D :: rest)) := by
  cases h with
  | nil =>
    exact ⟨_,
      rfl, by rw [List.flatMap_nil, List.nil_append,
      skipped_of_solid (by decide)]; rfl⟩
  | cons _ _ =>
      rw [List.flatMap_cons, List.append_assoc]
      exact lineEnd_of_opens
        (by rw [(opens_blockString ..).skipped]; exact opens_blockString ..)

/-- Nothing is skipped in front of printed blocks, nor in front of the closing
brace. -/
theorem BlockTexts.skipped {n : Nat} {bs : List RawBlock} {ts : List String}
    (h : BlockTexts e n bs ts) (rest : List UInt8) :
    Source.skipped (ts.flatMap bytesOf ++ 0x7D :: rest) = ts.flatMap bytesOf
        ++ 0x7D :: rest := by
  cases h with
  | nil => exact skipped_of_solid (by decide) _
  | cons _ _ =>
      rw [List.flatMap_cons, List.append_assoc]
      exact (opens_blockString ..).skipped

/-- The blocks of a function are read again. -/
theorem rawBlocks_echo (e : Setting) (fuel : Nat) {bs us : List RawBlock}
    (h : rawBlocks fuel bs c s = .ok ((us, c'), s')) :
    ∃ news ts, us = bs ++ news ∧ BlockTexts e bs.length news ts ∧
      ∀ turns bs₂, List.Forall₂ SameBlock bs bs₂ →
        Echo e (rawBlocks turns bs₂) c c'
          (List.Forall₂ SameBlock us) fun s rest =>
          s.length < turns ∧ Source.skipped s = ts.flatMap bytesOf
              ++ 0x7D :: rest := by
  induction fuel generalizing bs c s with
  | zero => cases h
  | succ fuel ih =>
      rw [rawBlocks] at h
      obtain ⟨closed, c₁, s₁, hclosed, h⟩ := read_bind_eq_ok.mp h
      obtain ⟨-, rfl⟩ := lift_eq_ok.mp hclosed
      cases closed with
      | true =>
          cases h
          refine ⟨[], [], (List.append_nil _).symm, .nil,
            fun turns bs₂ hbs => ⟨.refl _, fun _ c₂ s rest hsame hs => ?_⟩⟩
          obtain ⟨k, rfl⟩ : ∃ k, turns = k + 1 := ⟨turns - 1, by omega⟩
          refine ⟨bs₂, c₂, hbs, hsame, ?_⟩
          rw [rawBlocks,
            read_bind_of_ok
            (lift_eq_ok.mpr ⟨closes_here bytesOf_braceClose hs.2, rfl⟩)]
          rfl
      | false =>
          simp only [Bool.false_eq_true, if_false] at h
          obtain ⟨b, c₁, s₁, hb, h⟩ := read_bind_eq_ok.mp h
          obtain ⟨ws, hws, hecho⟩ := rawBlock_echo e hb
          obtain ⟨news, ts, rfl, hts, hmore⟩ := ih h
          rw [List.length_append, List.length_singleton] at hts
          refine ⟨b :: news, blockString bs.length b ws :: ts, by simp,
            .cons hws hts, fun turns bs₂ hbs => ?_⟩
          have hlater : Grows c₁ c' :=
            (hmore 0 (bs ++ [b]) (List.forall₂_same.mpr fun _ _ =>
            ⟨rfl, rfl, rfl⟩)).1
          refine ⟨hecho.1.trans hlater, fun hagrees c₂ s rest hsame hs => ?_⟩
          obtain ⟨k, rfl⟩ : ∃ k, turns = k + 1 := ⟨turns - 1, by omega⟩
          obtain ⟨hlen, hs⟩ := hs
          rw [List.flatMap_cons, List.append_assoc] at hs
          obtain ⟨b₂, c₃, hsame₂, hsame', hread⟩ :=
            hecho.2 (hagrees.of_grows hlater) c₂ s _ hsame
            ⟨_, rfl, hts.lineEnd rest, hs⟩
          have hshorter := skipped_length_le s
          rw [hs, bytesOf_blockString, List.length_append, List.length_cons,
            List.length_append, List.length_cons,
            List.length_cons, bodyBytes, List.length_append, List.length_cons,
              List.length_append,
            List.length_cons] at hshorter
          obtain ⟨us, c₂', hus, hsame'', hread'⟩ :=
            (hmore k (bs₂ ++ [b₂]) (List.rel_append hbs (.cons hsame₂ .nil))).2
            hagrees c₃ (0x0A :: (ts.flatMap bytesOf ++ 0x7D :: rest)) rest
              hsame'
            ⟨by rw [List.length_cons]; omega, by rw [skipped_line, hts.skipped]⟩
          refine ⟨us, c₂', hus, hsame'', ?_⟩
          rw [rawBlocks, read_bind_of_ok (lift_eq_ok.mpr
            ⟨closes_opening bytesOf_braceClose (.inr (.inr rfl)) hs
            (opens_blockString ..), rfl⟩)]
          simp only [Bool.false_eq_true, if_false]
          rw [← hbs.length_eq, read_bind_of_ok hread]
          exact hread'

-- =================================================================== edges

/-- What is printed of the blocks of a function. -/
def outline (f : Func) :
    List (Option (String × List Instr × Option Terminator)) :=
  f.blocks.map (·.map fun b => (b.name, b.instrs, b.term))

/-- Changing a block changes its place in the outline only. -/
theorem outline_modifyBlock (f : Func) (i : Nat) {g : Block → Block}
    {k : String × List Instr × Option Terminator →
      String × List Instr × Option Terminator}
    (hg : ∀ b, ((g b).name, (g b).instrs, (g b).term)
      = k (b.name, b.instrs, b.term)) :
    outline (f.modifyBlock i g) = (outline f).modify i (·.map k) := by
  show (f.blocks.modify i (·.map g)).map _ = (f.blocks.map _).modify i _
  apply List.ext_getElem?
  intro j
  rw [List.getElem?_map, List.getElem?_modify, List.getElem?_modify,
    List.getElem?_map]
  cases f.blocks[j]? with
  | none => rfl
  | some o =>
      by_cases hij : i = j
      · subst hij
        cases o with
        | none => simp
        | some b => simpa using hg b
      · simp [hij]

/-- Edits that neither rename blocks nor change their statements. -/
theorem outline_modifyBlock_same (f : Func) (b : BlockId) {g : Block → Block}
    (hg : ∀ b, ((g b).name, (g b).instrs, (g b).term)
      = (b.name, b.instrs, b.term)) :
    outline (f.modifyBlock b g) = outline f := by
  cases b with
  | negSucc n => rfl
  | ofNat i =>
      refine (outline_modifyBlock f i (k := id) hg).trans ?_
      have hid : (fun o : Option (String × List Instr × Option Terminator) =>
          o.map id) = id := by
        funext o
        exact Option.map_id_apply
      rw [hid, List.modify_id]

/-- The same outline under the same header. -/
def Redrawn (f g : Func) : Prop := outline g = outline f ∧ f.SameHeader g

/-- Changing predecessors leaves the outline as it is. -/
theorem redrawn_update {f g : Func} {b : BlockId} {k : Block → Block}
    (hk : ∀ b, ((k b).name, (k b).instrs, (k b).term)
      = (b.name, b.instrs, b.term))
    (h : f.updateBlock b k = .ok g) : Redrawn f g := by
  rw [Func.updateBlock, bind_eq_ok] at h
  obtain ⟨-, -, h⟩ := h
  cases h
  exact ⟨outline_modifyBlock_same f b hk, Func.sameHeader_modifyBlock f b k⟩

-- So connecting and disconnecting blocks redraws edges and nothing else.
theorem redrawn_connect {f g : Func} {b t : BlockId}
    (h : f.connect b t = .ok g) : Redrawn f g := by
  rw [Func.connect, bind_eq_ok] at h
  obtain ⟨f₁, hf₁, h⟩ := h
  cases h
  obtain ⟨houtline, hheader⟩ :=
    redrawn_update (fun b => by unfold Block.addPred; split <;> rfl) hf₁
  exact ⟨houtline, hheader.trans (Func.sameHeader_record ..)⟩

theorem redrawn_disconnect {f g : Func} {b t : BlockId}
    (h : f.disconnect b t = .ok g) : Redrawn f g := by
  rw [Func.disconnect, bind_eq_ok] at h
  obtain ⟨f₁, hf₁, h⟩ := h
  cases h
  obtain ⟨houtline, hheader⟩ :=
    redrawn_update (k := fun x => Block.removePred b x) (fun _ => rfl) hf₁
  exact ⟨houtline, hheader.trans (Func.sameHeader_record ..)⟩

/-- Edges may be redrawn any number of times. -/
theorem Redrawn.foldlM {step : Func → BlockId → Changing Func Func} {f g : Func}
    {ts : List BlockId} (hstep : ∀ f t g, step f t = .ok g → Redrawn f g)
    (h : ts.foldlM step f = .ok g) : Redrawn f g :=
  foldlM_keeps (P := fun g => Redrawn f g) (fun g t g' hg ht =>
    ⟨(hstep g t g' ht).1.trans hg.1, hg.2.trans (hstep g t g' ht).2⟩)
    ⟨rfl, .refl f⟩ h

/-- Setting a terminator puts it in its place in the outline. -/
theorem setTerm_outline {f g : Func} {i : Nat} {t : Terminator}
    (h : f.setTerm i (some t) = .ok g) :
    outline g = (outline f).modify i (·.map fun x => (x.1, x.2.1, some t))
        ∧ f.SameHeader g := by
  rw [Func.setTerm, bind_eq_ok] at h
  obtain ⟨blk, -, h⟩ := h
  obtain ⟨f₁, hf₁, h⟩ := bind_eq_ok.mp h
  have hstruck := Redrawn.foldlM (fun _ _ _ => redrawn_disconnect) hf₁
  have hlisted := Redrawn.foldlM (fun _ _ _ => redrawn_connect) h
  refine ⟨?_,
    hstruck.2.trans ((Func.sameHeader_modifyBlock ..).trans hlisted.2)⟩
  rw [hlisted.1, outline_modifyBlock (k := fun x => (x.1, x.2.1, some t))
    _ _ fun b => rfl, hstruck.1]

/-- The item behind a prefix is changed and no other. -/
theorem modify_append_length {α : Type} (k : α → α) (l : List α)
    (x : α) (r : List α) : (l ++ x :: r).modify l.length k = l ++ k x :: r := by
  induction l with
  | nil => rfl
  | cons y l ih => rw [List.cons_append, List.length_cons,
    List.modify_succ_cons, ih, List.cons_append]

/-- Setting the terminators gives every block its own. -/
theorem setTerms_outline {bs : List RawBlock} {f g : Func}
    (done : List (Option (String × List Instr × Option Terminator)))
    (hf : outline f = done ++ bs.map fun b => some (b.name, b.instrs, none))
    (h : setTerms f (bs.zipIdx done.length) = .ok g) :
    outline g = done ++ bs.map (fun b => some (b.name, b.instrs, some b.term))
        ∧ f.SameHeader g := by
  induction bs generalizing f done with
  | nil =>
      cases h
      exact ⟨hf, .refl _⟩
  | cons b bs ih =>
      rw [List.zipIdx_cons, setTerms] at h
      split at h
      · cases h
      · split at h
        · rename_i f₁ hf₁
          obtain ⟨hset, hheader⟩ := setTerm_outline hf₁
          have hnext : outline f₁
              = (done ++ [some (b.name, b.instrs, some b.term)]) ++
              bs.map fun b => some (b.name, b.instrs, none) := by
            rw [hset, hf, List.map_cons, modify_append_length]
            simp
          obtain ⟨hrest, hheader'⟩ :=
            ih _ hnext (by rw [List.length_append]; exact h)
          exact ⟨by rw [hrest]; simp, hheader.trans hheader'⟩
        · cases h

/-- Nothing depends on where the terminators stood. -/
theorem setTerms_congr {bs bs₂ : List RawBlock}
    (hbs : List.Forall₂ SameBlock bs bs₂) {f g : Func} {n : Nat}
    (h : setTerms f (bs.zipIdx n) = .ok g) :
    setTerms f (bs₂.zipIdx n) = .ok g := by
  induction hbs generalizing f n with
  | nil => exact h
  | cons hb _ ih =>
      rw [List.zipIdx_cons, setTerms] at h ⊢
      rw [hb.term]
      split at h
      · cases h
      · split at h
        · exact ih h
        · cases h

-- =============================================================== functions

/-- A parameter with its type. -/
def param (j : Nat) : Read ValueId := do
  let (id, t) ← inPart ("param " ++ toString j) typedValue
  annotate id t
  return id

/-- The context with an edit of the function. -/
def Context.edit (c : Context) (g : Func → Func) : Context :=
  { c with func := g c.func }

/-- A block as it was read, before its edges. -/
def freshBlock (b : RawBlock) : Option Block :=
  some { name := b.name, instrs := b.instrs, filled := true, closed := true }

/-- The function with the blocks as they were read, before their edges. -/
def withBlocks (raw : List RawBlock) (f : Func) : Func :=
  if raw.isEmpty then f else { f with blocks := raw.map freshBlock }

/-- The blocks of a function and what is made of them. -/
def functionBlocks : Read Func := do
  let raw ← rawBlocks (← turns) []
  if !raw.isEmpty then
    editFunc fun f => { f with
      blocks := raw.map fun b =>
        some { name := b.name, instrs := b.instrs, filled := true, closed := true } }
  let f := (← get).func
  if f.hasBlock f.entry then
    match setTerms f raw.zipIdx with
    | .error e => Read.failAt e.left e.error
    | .ok f => return f.mapBlocks fun b =>
      { b with instrs := b.instrs.map (fillTypes f) }
  else Read.failAt (← left) (.entryUndefined f.entry)

/-- What becomes of the blocks read. -/
theorem functionBlocks_eq_ok {f : Func} :
    functionBlocks c s = .ok ((f, c'), s') ↔
    ∃ raw c₁ g, rawBlocks (s.length + 1) [] c s = .ok ((raw, c₁), s')
        ∧ c' = c₁.edit (withBlocks raw) ∧
      c'.func.hasBlock c'.func.entry = true
          ∧ setTerms c'.func raw.zipIdx = .ok g ∧
      f = g.mapBlocks fun b =>
        { b with instrs := b.instrs.map (fillTypes g) } := by
  -- what is left to do once the blocks are there
  have hlast (raw : List RawBlock) (c₁ : Context) (t : List UInt8) : (do
      let f := (← get).func
      if f.hasBlock f.entry then
        match setTerms f raw.zipIdx with
        | .error e => Read.failAt e.left e.error
        | .ok f => return f.mapBlocks fun b =>
          { b with instrs := b.instrs.map (fillTypes f) }
      else Read.failAt (← left) (.entryUndefined f.entry) : Read Func) c₁ t
        = .ok ((f, c'), s') ↔
      ∃ g, t = s' ∧ c' = c₁ ∧ c'.func.hasBlock c'.func.entry = true
        ∧ setTerms c'.func raw.zipIdx = .ok g ∧
        f = g.mapBlocks fun b =>
          { b with instrs := b.instrs.map (fillTypes g) } := by
    rw [read_bind_of_ok (a := c₁) (by rfl)]
    by_cases hentry : c₁.func.hasBlock c₁.func.entry = true
    · simp only [hentry, if_true]
      cases hset : setTerms c₁.func raw.zipIdx with
      | error err =>
          constructor
          · intro h
            cases h
          · rintro ⟨g, -, rfl, -, hg, -⟩
            rw [hset] at hg
            cases hg
      | ok g =>
          dsimp only
          rw [read_pure_eq_ok]
          constructor
          · rintro ⟨rfl, rfl, rfl⟩
            exact ⟨g, rfl, rfl, hentry, hset, rfl⟩
          · rintro ⟨g', rfl, rfl, -, hg', rfl⟩
            rw [hset] at hg'
            cases hg'
            exact ⟨rfl, rfl, rfl⟩
    · simp only [hentry, Bool.false_eq_true, if_false]
      constructor
      · intro h
        cases h
      · rintro ⟨g, -, rfl, hentry', -⟩
        exact absurd hentry' hentry
  rw [functionBlocks, read_bind_of_ok (a := s.length + 1) (by rfl),
    read_bind_eq_ok]
  constructor
  · rintro ⟨raw, c₁, s₁, hraw, h⟩
    refine ⟨raw, c₁, ?_⟩
    -- a function without blocks keeps the entry it was made with
    by_cases hempty : raw.isEmpty = true
    · simp only [hempty, Bool.not_true, Bool.false_eq_true, if_false] at h
      obtain ⟨g, rfl, rfl, hentry, hset, rfl⟩ := (hlast raw c₁ s₁).mp h
      exact ⟨g, hraw, by rw [Context.edit, withBlocks, if_pos hempty],
        hentry, hset, rfl⟩
    · simp only [hempty, Bool.not_false, if_true] at h
      rw [read_bind_of_ok (a := ()) (by rfl)] at h
      obtain ⟨g, rfl, rfl, hentry, hset, rfl⟩ := (hlast raw _ s₁).mp h
      exact ⟨g, hraw, by rw [Context.edit, withBlocks, if_neg hempty]; rfl,
        hentry, hset, rfl⟩
  · rintro ⟨raw, c₁, g, hraw, rfl, hentry, hset, rfl⟩
    refine ⟨raw, c₁, s', hraw, ?_⟩
    by_cases hempty : raw.isEmpty = true
    · simp only [hempty, Bool.not_true, Bool.false_eq_true, if_false]
      exact (hlast raw c₁ s').mpr ⟨g,
        rfl, by rw [Context.edit, withBlocks, if_pos hempty], hentry, hset, rfl⟩
    · simp only [hempty, Bool.not_false, if_true]
      rw [read_bind_of_ok (a := ()) (by rfl)]
      exact (hlast raw _ s').mpr ⟨g,
        rfl, by rw [Context.edit, withBlocks, if_neg hempty]; rfl,
        hentry, hset, rfl⟩

/-- The entry of a function, if it is given, and the rest of it. -/
def functionBody : Read Func := do
  if (← attempt (keyword "entry")).isSome then
    let entry ← inPart "entry" blockId
    editFunc fun f => { f with entry }
  functionBlocks

/-- A function is its head up to the opening brace, then its body. -/
theorem function_eq_ok {f : Func} : function c s = .ok ((f, c'), s') ↔
    ∃ s₁ name s₂ s₃ params c₄ s₄ s₅ s₆ returns c₇ s₇ s₈,
      keyword "fn" s = .ok ((), s₁) ∧
      inPart "function name" ident s₁ = .ok (name, s₂)
          ∧ token "(" s₂ = .ok ((), s₃) ∧
      itemsUpTo ")" param (s₃.length + 1) []
        (c.edit fun _ => Func.named name) s₃ = .ok ((params, c₄), s₄) ∧
      token "->" s₄ = .ok ((), s₅) ∧ token "(" s₅ = .ok ((), s₆) ∧
      itemsUpTo ")" (fun j => liftM (inPart ("return " ++ toString j) type))
        (s₆.length + 1) [] c₄ s₆ =
        .ok ((returns, c₇), s₇) ∧
      token "\x7b" s₇ = .ok ((), s₈) ∧
      functionBody (c₇.edit fun f => { f with params, returns }) s₈
          = .ok ((f, c'), s') := by
  constructor
  · intro h
    rw [function] at h
    obtain ⟨_, c₁, s₁, hlift, h⟩ := read_bind_eq_ok.mp h
    obtain ⟨hfn, rfl⟩ := lift_eq_ok.mp hlift
    obtain ⟨name, c₁, s₂, hlift, h⟩ := read_bind_eq_ok.mp h
    obtain ⟨hname, rfl⟩ := lift_eq_ok.mp hlift
    obtain ⟨_, c₁, _, hedit, h⟩ := read_bind_eq_ok.mp h
    cases hedit
    obtain ⟨_, c₁, s₃, hlift, h⟩ := read_bind_eq_ok.mp h
    obtain ⟨hopen, rfl⟩ := lift_eq_ok.mp hlift
    obtain ⟨_, c₁, _, hturns, h⟩ := read_bind_eq_ok.mp h
    cases hturns
    obtain ⟨params, c₄, s₄, hparams, h⟩ := read_bind_eq_ok.mp h
    obtain ⟨_, c₁, s₅, hlift, h⟩ := read_bind_eq_ok.mp h
    obtain ⟨harrow, rfl⟩ := lift_eq_ok.mp hlift
    obtain ⟨_, c₁, s₆, hlift, h⟩ := read_bind_eq_ok.mp h
    obtain ⟨hopen', rfl⟩ := lift_eq_ok.mp hlift
    obtain ⟨_, c₁, _, hturns, h⟩ := read_bind_eq_ok.mp h
    cases hturns
    obtain ⟨returns, c₇, s₇, hreturns, h⟩ := read_bind_eq_ok.mp h
    obtain ⟨_, c₁, _, hedit, h⟩ := read_bind_eq_ok.mp h
    cases hedit
    obtain ⟨_, c₁, s₈, hlift, h⟩ := read_bind_eq_ok.mp h
    obtain ⟨hbrace, rfl⟩ := lift_eq_ok.mp hlift
    exact ⟨s₁, name, s₂, s₃, params, _, s₄, s₅, s₆, returns, c₇, s₇, s₈, hfn,
      hname, hopen, hparams, harrow, hopen', hreturns, hbrace, h⟩
  · rintro ⟨s₁, name, s₂, s₃, params, c₄, s₄, s₅, s₆, returns, c₇, s₇, s₈, hfn,
      hname, hopen, hparams, harrow, hopen', hreturns, hbrace, h⟩
    rw [function, read_bind_of_ok (lift_eq_ok.mpr ⟨hfn, rfl⟩),
      read_bind_of_ok (lift_eq_ok.mpr ⟨hname, rfl⟩),
      read_bind_of_ok (a := ()) (by rfl),
        read_bind_of_ok (lift_eq_ok.mpr ⟨hopen, rfl⟩),
      read_bind_of_ok (a := s₃.length + 1) (by rfl)]
    refine (read_bind_of_ok hparams).trans ?_
    rw [read_bind_of_ok (lift_eq_ok.mpr ⟨harrow, rfl⟩),
      read_bind_of_ok (lift_eq_ok.mpr ⟨hopen', rfl⟩),
      read_bind_of_ok (a := s₆.length + 1) (by rfl), read_bind_of_ok hreturns,
        read_bind_of_ok (a := ()) (by rfl),
      read_bind_of_ok (lift_eq_ok.mpr ⟨hbrace, rfl⟩)]
    exact h

end MirBackend.Source
