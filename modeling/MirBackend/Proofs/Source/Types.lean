/-
Types are read back as they are written.

`Written t` says so of one type: wherever its text stands, followed by something
that ends it, the reader answers with the type. Each form of type hands the
property on from its parts (`written_...`), and whatever the reader answers on
any input has one of the forms (`typeWith_formed`), all the way down.
-/
import MirBackend.Proofs.Source.Tokens

namespace MirBackend.Source

open Text

variable {s s' rest : List UInt8}

-- ================================================================ openings

/-- A byte that an item of a list may begin with: it is not skipped, and it is
neither a comma nor the end of a list. -/
def isOpening (b : UInt8) : Bool :=
  isSolid b && b ≠ 0x29 && b ≠ 0x2C && b ≠ 0x7D

/-- A text that begins like an item of a list. -/
def Opens (w : List UInt8) : Prop := w.head?.any isOpening = true

/-- One byte decides. -/
theorem opens_cons {b : UInt8} (h : isOpening b = true) (w : List UInt8) :
    Opens (b :: w) := h

theorem Opens.exists_cons {w : List UInt8} (h : Opens w) :
    ∃ b w', w = b :: w' ∧ isOpening b = true := by
  cases w with
  | nil => cases h
  | cons b w => exact ⟨b, w, rfl, h⟩

/-- What comes behind does not change how a text begins. -/
theorem Opens.append {w : List UInt8} (h : Opens w) (r : List UInt8) :
    Opens (w ++ r) := by
  obtain ⟨b, w', rfl, hb⟩ := h.exists_cons
  exact hb

/-- Items take at least one byte, which is what ends the loops over lists. -/
theorem Opens.length_pos {w : List UInt8} (h : Opens w) : 0 < w.length := by
  obtain ⟨b, w', rfl, -⟩ := h.exists_cons
  exact Nat.succ_pos _

/-- Nothing is skipped in front of an item. -/
theorem Opens.skipped {w : List UInt8} (h : Opens w) : skipped w = w := by
  obtain ⟨b, w', rfl, hb⟩ := h.exists_cons
  simp only [isOpening, Bool.and_eq_true] at hb
  exact skipped_of_solid hb.1.1.1 _

/-- No list ends where an item begins. -/
theorem Opens.after? {w : List UInt8} (h : Opens w) {b : UInt8}
    (hb : b = 0x29 ∨ b = 0x2C ∨ b = 0x7D) : after? [b] w = none := by
  obtain ⟨c, w', rfl, hc⟩ := h.exists_cons
  simp only [isOpening, Bool.and_eq_true, decide_eq_true_eq] at hc
  refine after?_of_ne ?_ _ _
  rcases hb with rfl | rfl | rfl
  · exact fun e => hc.1.1.2 e.symm
  · exact fun e => hc.1.2 e.symm
  · exact fun e => hc.2 e.symm

/-- An item may begin with a letter. -/
theorem opening_of_isLetter {b : UInt8} : isLetter b = true →
    isOpening b = true :=
  byte_forall (P := fun b => isLetter b = true → isOpening b = true)
    (by decide +kernel) b

/-- An item may begin with a digit. -/
theorem opening_of_isDigit {b : UInt8} : isDigit b = true →
    isOpening b = true :=
  byte_forall (P := fun b => isDigit b = true → isOpening b = true)
    (by decide +kernel) b

/-- Names may be items. -/
theorem opens_name {n : String} (hn : isName n = true) : Opens (bytesOf n) := by
  obtain ⟨b, bs, hbytes, hb, -⟩ := isName_iff.mp hn
  rw [hbytes]
  exact opening_of_isLetter hb

-- The marks between and around types, each of one byte.
theorem bytesOf_comma : bytesOf "," = [0x2C] := bytesOf_ofList _

theorem bytesOf_colon : bytesOf ":" = [0x3A] := bytesOf_ofList _

theorem bytesOf_semicolon : bytesOf ";" = [0x3B] := bytesOf_ofList _

theorem bytesOf_parenOpen : bytesOf "(" = [0x28] := bytesOf_ofList _

theorem bytesOf_parenClose : bytesOf ")" = [0x29] := bytesOf_ofList _

theorem bytesOf_bracketOpen : bytesOf "[" = [0x5B] := bytesOf_ofList _

theorem bytesOf_bracketClose : bytesOf "]" = [0x5D] := bytesOf_ofList _

theorem bytesOf_braceOpen : bytesOf "\x7b" = [0x7B] := bytesOf_ofList _

theorem bytesOf_braceClose : bytesOf "\x7d" = [0x7D] := bytesOf_ofList _

theorem bytesOf_commaSpace : bytesOf ", " = [0x2C, 0x20] := bytesOf_ofList _

theorem bytesOf_colonSpace : bytesOf ": " = [0x3A, 0x20] := bytesOf_ofList _

/-- A closing token is seen where it stands. -/
theorem closes_here {t : String} {b : UInt8} (ht : bytesOf t = [b])
    (h : skipped s = b :: rest) : closes t s = .ok (true, rest) :=
  closes_takes (by rw [ht, h]; rfl)

/-- A mark is taken where it stands. -/
theorem token_here {t : String} {b : UInt8} (ht : bytesOf t = [b])
    (h : skipped s = b :: rest) : token t s = .ok ((), rest) :=
  token_takes (by rw [ht, h]; rfl)

/-- No closing token is seen where another byte stands. -/
theorem closes_elsewhere {t : String} {b c : UInt8} (ht : bytesOf t = [b])
    (h : skipped s = c :: rest) (hne : b ≠ c) : closes t s = .ok (false, s) :=
  closes_fails (by rw [ht, h]; exact after?_of_ne hne _ _)

/-- No closing token is seen where an item begins. -/
theorem closes_opening {t : String} {b : UInt8} {w : List UInt8}
    (ht : bytesOf t = [b]) (hb : b = 0x29 ∨ b = 0x2C ∨ b = 0x7D)
    (h : skipped s = w) (hw : Opens w) : closes t s = .ok (false, s) :=
  closes_fails (by rw [ht, h]; exact hw.after? hb)

-- =========================================================== written types

/-- A type that the reader answers with wherever it is written. -/
structure Written (t : Ty) : Prop where
  opens : Opens (bytesOf t.text)
  present : t.isMissing = false
  reread : ∀ fuel s rest, 2 * (bytesOf t.text).length ≤ fuel →
    skipped s = bytesOf t.text ++ rest →
    Ends rest → typeWith fuel s = .ok (t, rest)

/-- The types that begin with a name, behind the name. -/
def afterName (fuel : Nat) (front : List UInt8) : Option String → Scan Ty
  | none => failAt front .typeExpected
  | some "felt" => return .felt
  | some "bool" => return .bool
  | some "u32" => return .u32
  | some "fn" => do
      token "("
      let params ← listWith fuel []
      token "->"
      token "("
      return .fn params (← listWith fuel [])
  | some name => do
      if (← get).head? = some 0x7B then return (← recordWith fuel name).toTy
      else failAt front (.unknownType name)

/-- One turn of the rule for types. The forms are told apart by the first byte
behind the blanks; whatever is no mark is taken for a word. -/
theorem typeWith_succ (fuel : Nat) (s : List UInt8) : typeWith (fuel + 1) s = (
    match skipped s with
    | [] => failAt [] .typeExpected
    | 0x3F :: s => do set s; return .unknown
    | 0x2A :: s => do set s; return .ptr (← typeWith fuel)
    | 0x5B :: s => do
        set s
        let elem ← typeWith fuel
        token ";"
        let n ← arrayLength
        token "]"
        return .array elem n
    | 0x28 :: s => do
        set s
        if ← closes ")" then return .unit
        else match ← elemsWith fuel [] false with
          | ([t], false) => return t
          | (ts, _) => return .tuple ts
    | 0x7B :: _ => do return (← recordWith fuel "").toTy
    | s => attempt ident >>= afterName fuel s : Scan Ty) (skipped s) := by
  rw [typeWith]
  rfl

/-- Setting the input aside is a step of its own in the rules, and no step in
proofs. -/
theorem set_bind {α : Type} (t : List UInt8) (k : Unit → Scan α)
    (s : List UInt8) : (set t >>= k : Scan α) s = k () t := rfl

/-- The unknown type is its mark. -/
theorem written_unknown : Written .unknown := by
  have htext : bytesOf (Ty.text .unknown) = [0x3F] := by
    rw [Ty.text]
    exact bytesOf_ofList _
  refine ⟨by rw [htext]; exact opens_cons (by decide) _, rfl,
    fun fuel s rest hfuel h _ => ?_⟩
  rw [htext] at h hfuel
  obtain ⟨k, rfl⟩ : ∃ k, fuel = k + 1 := ⟨fuel - 1, by simp at hfuel; omega⟩
  rw [typeWith_succ, h]
  rfl

/-- A pointer is a star in front of what it points to. -/
theorem written_ptr {t : Ty} (ht : Written t) : Written (.ptr t) := by
  have htext : bytesOf (Ty.text (.ptr t)) = 0x2A :: bytesOf t.text := by
    rw [Ty.text, bytesOf_append, show bytesOf "*" = [0x2A]
      from bytesOf_ofList _]
    rfl
  refine ⟨by rw [htext]; exact opens_cons (by decide) _, rfl,
    fun fuel s rest hfuel h hrest => ?_⟩
  rw [htext] at h hfuel
  obtain ⟨k, rfl⟩ : ∃ k, fuel = k + 1 := ⟨fuel - 1, by simp at hfuel; omega⟩
  have hread :=
    ht.reread k (bytesOf t.text ++ rest) rest (by simp at hfuel; omega)
    (ht.opens.append rest).skipped hrest
  -- the star selects the branch, and the pointee is read by the fuel that is
  -- left
  rw [typeWith_succ, h]
  show (do set (bytesOf t.text ++ rest); return .ptr (← typeWith k) : Scan Ty) _
    = _
  rw [set_bind, scan_bind_of_ok hread]
  rfl

/-- The length of an array is taken where it stands. -/
theorem arrayLength_takes {n : Int64} (hn : 0 ≤ n.toInt)
    (h : skipped s = bytesOf (toString n.toInt) ++ rest) (hrest : Ends rest) :
    arrayLength s = .ok (n, rest) := by
  have hlt := n.toInt_lt
  have hle := n.le_toInt
  rw [arrayLength, number_takes ⟨hle, hlt⟩ h hrest]
  dsimp only
  rw [if_neg (by omega), Int64.ofInt_toInt]

/-- An array is its element and its length, with a semicolon between them. -/
theorem written_array {t : Ty} {n : Int64} (ht : Written t) (hn : 0 ≤ n.toInt) :
    Written (.array t n) := by
  have htext : bytesOf (Ty.text (.array t n)) =
      0x5B :: (bytesOf t.text ++ 0x3B :: 0x20
        :: (bytesOf (toString n.toInt) ++ [0x5D])) := by
    simp only [Ty.text, bytesOf_append, bytesOf_bracketOpen,
      bytesOf_bracketClose,
      show bytesOf "; " = [0x3B, 0x20] from bytesOf_ofList _, List.append_assoc,
        List.cons_append, List.nil_append]
  refine ⟨by rw [htext]; exact opens_cons (by decide) _, rfl,
    fun fuel s rest hfuel h hrest => ?_⟩
  rw [htext] at h hfuel
  obtain ⟨k, rfl⟩ : ∃ k, fuel = k + 1 := ⟨fuel - 1, by simp at hfuel; omega⟩
  simp only [List.cons_append, List.append_assoc, List.nil_append] at h
  -- the element type ends at the semicolon
  have hread :=
    ht.reread k _ (0x3B :: 0x20 :: (bytesOf (toString n.toInt) ++ 0x5D :: rest))
    (by simp at hfuel; omega) (ht.opens.append _).skipped
    (ends_cons (by decide) _)
  -- and the length at the bracket
  have hlength :
      arrayLength (0x20 :: (bytesOf (toString n.toInt) ++ 0x5D :: rest))
      = .ok (n, 0x5D :: rest) :=
    arrayLength_takes hn (by rw [skipped_space, skipped_number])
      (ends_cons (by decide) _)
  rw [typeWith_succ, h]
  show (do
    set (bytesOf t.text ++ 0x3B :: 0x20
      :: (bytesOf (toString n.toInt) ++ 0x5D :: rest))
    let elem ← typeWith k
    token ";"
    let n ← arrayLength
    token "]"
    return .array elem n : Scan Ty) _ = _
  rw [set_bind, scan_bind_of_ok hread,
    scan_bind_of_ok (token_here bytesOf_semicolon
      (skipped_of_solid (by decide) _)), scan_bind_of_ok hlength,
    scan_bind_of_ok (token_here bytesOf_bracketClose
      (skipped_of_solid (by decide) _))]
  rfl

-- ================================================================== commas

/-- Further items, each behind a comma and a blank. -/
def further (ws : List (List UInt8)) : List UInt8 :=
  ws.flatMap fun w => 0x2C :: 0x20 :: w

/-- Items with a comma and a blank between them. -/
def listed : List (List UInt8) → List UInt8
  | [] => []
  | w :: ws => w ++ further ws

@[simp] theorem further_nil : further [] = [] := rfl

/-- A comma and a blank stand in front of each further item. -/
theorem further_cons (w : List UInt8) (ws : List (List UInt8)) :
    further (w :: ws) = 0x2C :: 0x20 :: (w ++ further ws) := rfl

/-- What ends an item: a comma or what a closing byte begins. -/
theorem ends_further {b : UInt8} (hb : goesOn b = false)
    (ws : List (List UInt8)) (r : List UInt8) :
    Ends (further ws ++ b :: r) := by
  cases ws with
  | nil => exact ends_cons hb _
  | cons w ws => exact ends_cons (by decide) _

/-- Nothing is skipped in front of further items, nor in front of the mark
behind them. -/
theorem skipped_further {b : UInt8} (hb : isSolid b = true)
    (ws : List (List UInt8)) (r : List UInt8) :
    skipped (further ws ++ b :: r) = further ws ++ b :: r := by
  cases ws with
  | nil => exact skipped_of_solid hb _
  | cons w ws => exact skipped_of_solid (by decide) _

/-- Nothing is skipped in front of a list of items, nor in front of the mark
behind it. -/
theorem skipped_listed {b : UInt8} (hb : isSolid b = true)
    {ws : List (List UInt8)} (hws : ∀ w ∈ ws, Opens w) (r : List UInt8) :
    skipped (listed ws ++ b :: r) = listed ws ++ b :: r := by
  cases ws with
  | nil => exact skipped_of_solid hb _
  | cons w ws =>
      rw [listed, List.append_assoc]
      exact ((hws w List.mem_cons_self).append _).skipped

-- ================================================================== tuples

/-- The written forms of types. -/
def typeBytes (ts : List Ty) : List (List UInt8) :=
  ts.map fun t => bytesOf t.text

@[simp] theorem typeBytes_cons (t : Ty) (ts : List Ty) :
    typeBytes (t :: ts) = bytesOf t.text :: typeBytes ts := rfl

/-- The printed list of types is its items with commas between them. -/
theorem bytesOf_textOfList (ts : List Ty) :
    bytesOf (Ty.textOfList ts) = listed (typeBytes ts) := by
  match ts with
  | [] =>
      rw [Ty.textOfList]
      exact bytesOf_empty
  | [t] =>
      rw [Ty.textOfList]
      exact (List.append_nil _).symm
  | t :: u :: ts =>
      rw [Ty.textOfList, bytesOf_append, bytesOf_append,
        bytesOf_textOfList (u :: ts), bytesOf_commaSpace]
      · simp only [typeBytes_cons, listed, further_cons,
          List.append_assoc, List.cons_append, List.nil_append]
      · simp

/-- If types may be items, so may their written forms. -/
theorem opens_typeBytes {ts : List Ty}
    (hts : ∀ t ∈ ts, Opens (bytesOf t.text)) : ∀ w ∈ typeBytes ts, Opens w := by
  simpa [typeBytes] using hts

/-- Further elements of a tuple are read one by one, and a comma was seen if
there are any. -/
theorem elemsWith_further (news ts : List Ty) (comma : Bool)
    (fuel : Nat) (hts : ts ≠ []) (hnews : ∀ t ∈ news, Written t)
    (hfuel : 2 * (further (typeBytes news)).length + 2 ≤ fuel)
    (h : skipped s = further (typeBytes news) ++ 0x29 :: rest) :
    elemsWith fuel ts comma s
        = .ok ((ts ++ news, comma || !news.isEmpty), rest) := by
  induction news generalizing ts comma fuel s with
  | nil =>
      obtain ⟨k, rfl⟩ : ∃ k, fuel = k + 1 := ⟨fuel - 1, by omega⟩
      rw [elemsWith, scan_bind_of_ok (closes_here bytesOf_parenClose h)]
      simp [scan_pure_eq_ok]
  | cons t news ih =>
      obtain ⟨k, rfl⟩ : ∃ k, fuel = k + 1 := ⟨fuel - 1, by omega⟩
      have ht := hnews t List.mem_cons_self
      -- a comma and a blank stand in front of every further element
      have hfront : skipped s = 0x2C :: 0x20
          :: (bytesOf t.text ++ (further (typeBytes news)
          ++ 0x29 :: rest)) := by
        rw [h, typeBytes_cons, further_cons]
        simp only [List.append_assoc, List.cons_append]
      have hlen : (further (typeBytes (t :: news))).length
          = 2 + (bytesOf t.text).length
          + (further (typeBytes news)).length := by
        simp only [typeBytes_cons, further_cons,
          List.length_append, List.length_cons]
        omega
      have hnext :
          skipped
          (0x20
          :: (bytesOf t.text ++ (further (typeBytes news) ++ 0x29 :: rest))) =
          bytesOf t.text ++ (further (typeBytes news) ++ 0x29 :: rest) := by
        rw [skipped_space, (ht.opens.append _).skipped]
      have hread :=
        ht.reread k _ _ (by omega) hnext (ends_further (by decide) _ _)
      -- the rest is read with this element added
      have hmore := ih (ts ++ [t]) true k (by simp)
        (fun u hu => hnews u (List.mem_cons_of_mem _ hu)) (by omega)
        (skipped_further (by decide) _ rest)
      have hempty : ts.isEmpty = false := by
        rw [List.isEmpty_eq_false_iff]; exact hts
      rw [elemsWith,
        scan_bind_of_ok (closes_elsewhere bytesOf_parenClose
        hfront (by decide))]
      simp only [Bool.false_eq_true, if_false, hempty]
      rw [scan_bind_of_ok (token_here bytesOf_comma hfront),
        scan_bind_of_ok (closes_opening bytesOf_parenClose (.inl rfl) hnext
          (ht.opens.append _))]
      simp only [Bool.false_eq_true, if_false]
      rw [scan_bind_of_ok hread, hmore]
      simp

/-- The first element needs no comma. -/
theorem elemsWith_first {t : Ty} (comma : Bool) (fuel : Nat) (ht : Written t)
    (hfuel : 2 * (bytesOf t.text).length ≤ fuel)
    (h : skipped s = bytesOf t.text ++ rest) (hrest : Ends rest) :
    elemsWith (fuel + 1) [] comma s = elemsWith fuel [t] comma rest := by
  rw [elemsWith,
    scan_bind_of_ok (closes_opening bytesOf_parenClose (.inl rfl) h
    (ht.opens.append _))]
  simp only [Bool.false_eq_true, if_false, List.isEmpty_nil, if_true]
  rw [scan_bind_of_ok (ht.reread fuel s rest hfuel h hrest)]

/-- A tuple of one is written with a comma behind its component. -/
theorem written_single {t : Ty} (ht : Written t) : Written (.tuple [t]) := by
  have htext : bytesOf (Ty.text (.tuple [t]))
      = 0x28 :: (bytesOf t.text ++ [0x2C, 0x29]) := by
    simp only [Ty.text, bytesOf_append, bytesOf_parenOpen,
      show bytesOf ",)" = [0x2C, 0x29] from bytesOf_ofList _,
      List.cons_append, List.nil_append]
  refine ⟨by rw [htext]; exact opens_cons (by decide) _, rfl,
    fun fuel s rest hfuel h hrest => ?_⟩
  rw [htext] at h hfuel
  simp only [List.cons_append, List.append_assoc, List.nil_append] at h
  simp only [List.length_cons, List.length_append, List.length_nil] at hfuel
  obtain ⟨k, rfl⟩ : ∃ k, fuel = k + 3 := ⟨fuel - 3, by omega⟩
  have hopen := (ht.opens.append (0x2C :: 0x29 :: rest)).skipped
  -- the comma behind the only element is what makes it a tuple
  have hfirst :=
    elemsWith_first false (k + 1) ht (by omega) hopen (ends_cons (by decide) _)
  have hlast : elemsWith (k + 1) [t] false (0x2C :: 0x29 :: rest)
      = .ok (([t], true), rest) := by
    rw [elemsWith,
      scan_bind_of_ok (closes_elsewhere bytesOf_parenClose
      (skipped_of_solid (by decide) _) (by decide))]
    simp only [Bool.false_eq_true, if_false, List.isEmpty_cons]
    rw [scan_bind_of_ok (token_here bytesOf_comma
      (skipped_of_solid (by decide) _)),
      scan_bind_of_ok (closes_here bytesOf_parenClose
        (skipped_of_solid (by decide) _))]
    rfl
  rw [typeWith_succ, h]
  show (do
    set (bytesOf t.text ++ 0x2C :: 0x29 :: rest)
    if ← closes ")" then return .unit
    else match ← elemsWith (k + 2) [] false with
      | ([t], false) => return t
      | (ts, _) => return .tuple ts : Scan Ty) _ = _
  rw [set_bind,
    scan_bind_of_ok (closes_opening bytesOf_parenClose (.inl rfl) hopen
    (ht.opens.append _))]
  simp only [Bool.false_eq_true, if_false]
  rw [scan_bind_of_ok (hfirst.trans hlast)]
  rfl

/-- A tuple of two elements and more. -/
theorem written_tuple {t u : Ty} {ts : List Ty}
    (hts : ∀ x ∈ t :: u :: ts, Written x) :
    Written (.tuple (t :: u :: ts)) := by
  have ht := hts t List.mem_cons_self
  have hmore : ∀ x ∈ u :: ts, Written x :=
    fun x hx => hts x (List.mem_cons_of_mem _ hx)
  have htext : bytesOf (Ty.text (.tuple (t :: u :: ts))) =
      0x28 :: (bytesOf t.text
        ++ (further (typeBytes (u :: ts)) ++ [0x29])) := by
    rw [Ty.text, bytesOf_append, bytesOf_append, bytesOf_textOfList,
      bytesOf_parenOpen, bytesOf_parenClose, typeBytes_cons, listed]
    · simp only [List.append_assoc, List.cons_append, List.nil_append]
    · simp
  refine ⟨by rw [htext]; exact opens_cons (by decide) _, rfl,
    fun fuel s rest hfuel h hrest => ?_⟩
  rw [htext] at h hfuel
  simp only [List.cons_append, List.append_assoc, List.nil_append] at h
  simp only [List.length_cons, List.length_append, List.length_nil] at hfuel
  obtain ⟨k, rfl⟩ : ∃ k, fuel = k + 2 := ⟨fuel - 2, by omega⟩
  have hopen :=
    (ht.opens.append (further (typeBytes (u :: ts)) ++ 0x29 :: rest)).skipped
  -- the first element opens the list, the others each follow a comma
  have hfirst :=
    elemsWith_first false k ht (by omega) hopen (ends_further (by decide) _ _)
  have hlast :=
    elemsWith_further (u :: ts) [t] false k (by simp) hmore (by omega)
    (skipped_further (by decide) _ rest)
  rw [typeWith_succ, h]
  show (do
    set (bytesOf t.text ++ (further (typeBytes (u :: ts)) ++ 0x29 :: rest))
    if ← closes ")" then return .unit
    else match ← elemsWith (k + 1) [] false with
      | ([t], false) => return t
      | (ts, _) => return .tuple ts : Scan Ty) _ = _
  rw [set_bind,
    scan_bind_of_ok (closes_opening bytesOf_parenClose (.inl rfl) hopen
    (ht.opens.append _))]
  simp only [Bool.false_eq_true, if_false]
  rw [scan_bind_of_ok (hfirst.trans hlast)]
  rfl

/-- The unit type is a pair of parentheses with nothing in it. -/
theorem written_unit : Written .unit := by
  have htext : bytesOf (Ty.text .unit) = [0x28, 0x29] := by
    rw [Ty.text]
    exact bytesOf_ofList _
  refine ⟨by rw [htext]; exact opens_cons (by decide) _, rfl,
    fun fuel s rest hfuel h _ => ?_⟩
  rw [htext] at h hfuel
  obtain ⟨k, rfl⟩ : ∃ k, fuel = k + 1 := ⟨fuel - 1, by simp at hfuel; omega⟩
  -- a parenthesis that closes at once
  rw [typeWith_succ, h]
  show (do
    set (0x29 :: rest)
    if ← closes ")" then return .unit
    else match ← elemsWith k [] false with
      | ([t], false) => return t
      | (ts, _) => return .tuple ts : Scan Ty) _ = _
  rw [set_bind,
    scan_bind_of_ok (closes_here bytesOf_parenClose
    (skipped_of_solid (by decide) _))]
  rfl

-- ============================================================= named types

/-- A name in the place of a type is looked at as a whole. -/
theorem typeWith_name {n : String} (fuel : Nat) (hn : isName n = true)
    (h : skipped s = bytesOf n ++ rest) (hrest : Ends rest) :
    typeWith (fuel + 1) s = afterName fuel (skipped s) (some n) rest := by
  obtain ⟨b, bs, hbytes, hb, -⟩ := isName_iff.mp hn
  have hident : attempt ident (skipped s) = .ok (some n, rest) :=
    attempt_of_ok (ident_takes hn (by rw [h, skipped_name hn]) hrest)
  rw [typeWith_succ]
  have hfront : skipped s = b :: (bs ++ rest) := by rw [h, hbytes]; rfl
  generalize skipped s = front at *
  -- a letter opens none of the types that begin with a sign
  split
  · cases hfront
  · cases hfront
    exact absurd hb (by decide)
  · cases hfront
    exact absurd hb (by decide)
  · cases hfront
    exact absurd hb (by decide)
  · cases hfront
    exact absurd hb (by decide)
  · cases hfront
    exact absurd hb (by decide)
  · rw [scan_bind_of_ok hident]

/-- A type that is a name and nothing else. -/
theorem written_word {t : Ty} {n : String} (htext : t.text = n)
    (hn : isName n = true) (hpresent : t.isMissing = false)
    (hname : ∀ fuel front, afterName fuel front (some n) = pure t) :
    Written t := by
  refine ⟨by rw [htext]; exact opens_name hn, hpresent,
    fun fuel s rest hfuel h hrest => ?_⟩
  rw [htext] at h hfuel
  obtain ⟨k, rfl⟩ : ∃ k, fuel = k + 1 := ⟨fuel - 1, by
    have := (opens_name hn).length_pos
    omega⟩
  rw [typeWith_name k hn h hrest, hname]
  rfl

/-- The words that begin a type are written as names. -/
theorem isName_typeWords :
    ∀ n ∈ ["felt", "bool", "u32", "fn"], isName n = true := by
  decide +kernel

-- The words that are types.
theorem written_felt : Written .felt :=
  written_word (by rw [Ty.text]) (n := "felt") (isName_typeWords _ (by simp))
    rfl fun _ _ => rfl

theorem written_bool : Written .bool :=
  written_word (by rw [Ty.text]) (n := "bool") (isName_typeWords _ (by simp))
    rfl fun _ _ => rfl

theorem written_u32 : Written .u32 :=
  written_word (by rw [Ty.text]) (n := "u32") (isName_typeWords _ (by simp))
    rfl fun _ _ => rfl

-- ========================================================== function types

/-- Further types of a list are read one by one. -/
theorem listWith_further (news ts : List Ty) (fuel : Nat) (hts : ts ≠ [])
    (hnews : ∀ t ∈ news, Written t)
    (hfuel : 2 * (further (typeBytes news)).length + 2 ≤ fuel)
    (h : skipped s = further (typeBytes news) ++ 0x29 :: rest) :
    listWith fuel ts s = .ok (ts ++ news, rest) := by
  induction news generalizing ts fuel s with
  | nil =>
      obtain ⟨k, rfl⟩ : ∃ k, fuel = k + 1 := ⟨fuel - 1, by omega⟩
      rw [listWith, scan_bind_of_ok (closes_here bytesOf_parenClose h)]
      simp [scan_pure_eq_ok]
  | cons t news ih =>
      obtain ⟨k, rfl⟩ : ∃ k, fuel = k + 1 := ⟨fuel - 1, by omega⟩
      have ht := hnews t List.mem_cons_self
      have hfront : skipped s = 0x2C :: 0x20
          :: (bytesOf t.text ++ (further (typeBytes news)
          ++ 0x29 :: rest)) := by
        rw [h, typeBytes_cons, further_cons]
        simp only [List.append_assoc, List.cons_append]
      have hlen : (further (typeBytes (t :: news))).length
          = 2 + (bytesOf t.text).length
          + (further (typeBytes news)).length := by
        simp only [typeBytes_cons, further_cons,
          List.length_append, List.length_cons]
        omega
      -- the blank behind the comma is skipped before the type
      have hread :=
        ht.reread k
          (0x20
          :: (bytesOf t.text ++ (further (typeBytes news) ++ 0x29 :: rest)))
          _ (by omega)
        (by rw [skipped_space, (ht.opens.append _).skipped])
        (ends_further (by decide) _ _)
      have hmore :=
        ih (ts ++ [t]) k (by simp)
          (fun u hu => hnews u (List.mem_cons_of_mem _ hu)) (by omega)
        (skipped_further (by decide) _ rest)
      have hempty : ts.isEmpty = false := by
        rw [List.isEmpty_eq_false_iff]; exact hts
      rw [listWith,
        scan_bind_of_ok (closes_elsewhere bytesOf_parenClose
        hfront (by decide))]
      simp only [Bool.false_eq_true, if_false, hempty, Bool.not_false, if_true]
      rw [scan_bind_of_ok (token_here bytesOf_comma hfront),
        scan_bind_of_ok hread, hmore]
      simp

/-- A list of types is read up to its closing parenthesis, also if it is empty.
-/
theorem listWith_takes {ts : List Ty} (fuel : Nat) (hts : ∀ t ∈ ts, Written t)
    (hfuel : 2 * (bytesOf (Ty.textOfList ts)).length + 2 ≤ fuel)
    (h : skipped s = bytesOf (Ty.textOfList ts) ++ 0x29 :: rest) :
    listWith fuel [] s = .ok (ts, rest) := by
  obtain ⟨k, rfl⟩ : ∃ k, fuel = k + 1 := ⟨fuel - 1, by omega⟩
  cases ts with
  -- an empty list closes at once
  | nil =>
      rw [Ty.textOfList, bytesOf_empty] at h
      rw [listWith, scan_bind_of_ok (closes_here bytesOf_parenClose h)]
      rfl
  | cons t ts =>
      have ht := hts t List.mem_cons_self
      rw [bytesOf_textOfList, typeBytes_cons, listed] at h hfuel
      rw [List.append_assoc] at h
      rw [List.length_append] at hfuel
      have hpos := ht.opens.length_pos
      have hread := ht.reread k s _ (by omega) h (ends_further (by decide) _ _)
      rw [listWith,
        scan_bind_of_ok (closes_opening bytesOf_parenClose (.inl rfl) h
        (ht.opens.append _))]
      simp only [Bool.false_eq_true, if_false, List.isEmpty_nil, Bool.not_true]
      rw [scan_bind_of_ok hread]
      exact listWith_further ts [t] k (by simp)
        (fun u hu => hts u (List.mem_cons_of_mem _ hu)) (by omega)
        (skipped_further (by decide) _ rest)

/-- Nothing is skipped in front of a printed list. -/
theorem skipped_textOfList {ts : List Ty} (hts : ∀ t ∈ ts, Written t)
    (rest : List UInt8) :
    skipped (bytesOf (Ty.textOfList ts) ++ 0x29 :: rest) = bytesOf
      (Ty.textOfList ts) ++ 0x29 :: rest := by
  rw [bytesOf_textOfList]
  exact skipped_listed (by decide) (opens_typeBytes fun t ht =>
    (hts t ht).opens) rest

/-- The type of a function is the list of its parameters and that of its
results. -/
theorem written_fn {ps rs : List Ty} (hps : ∀ t ∈ ps, Written t)
    (hrs : ∀ t ∈ rs, Written t) : Written (.fn ps rs) := by
  have htext : bytesOf (Ty.text (.fn ps rs))
      = bytesOf "fn" ++ (0x28 :: (bytesOf (Ty.textOfList ps) ++ 0x29 :: 0x20
      :: 0x2D :: 0x3E :: 0x20 :: 0x28
        :: (bytesOf (Ty.textOfList rs) ++ [0x29]))) := by
    rw [Ty.text, bytesOf_append, bytesOf_append, bytesOf_append, bytesOf_append,
      show "fn(" = "fn" ++ "(" by simp, bytesOf_append, bytesOf_parenOpen,
      show bytesOf ") -> (" = [0x29, 0x20, 0x2D, 0x3E, 0x20, 0x28]
        from bytesOf_ofList _, bytesOf_parenClose]
    simp only [List.append_assoc, List.cons_append, List.nil_append]
  have hn : isName "fn" = true := isName_typeWords _ (by simp)
  refine ⟨by rw [htext]; exact (opens_name hn).append _, rfl,
    fun fuel s rest hfuel h hrest => ?_⟩
  rw [htext] at h hfuel
  simp only [List.append_assoc, List.cons_append, List.nil_append] at h
  simp only [List.length_cons, List.length_append, List.length_nil] at hfuel
  obtain ⟨k, rfl⟩ : ∃ k, fuel = k + 1 := ⟨fuel - 1, by omega⟩
  -- parameters, an arrow, and results
  have harrow :
      token "->" (0x20 :: 0x2D :: 0x3E :: 0x20 :: 0x28
      :: (bytesOf (Ty.textOfList rs) ++ 0x29 :: rest)) =
      .ok ((),
        0x20 :: 0x28 :: (bytesOf (Ty.textOfList rs) ++ 0x29 :: rest)) := by
    refine token_takes ?_
    rw [skipped_space, skipped_of_solid (by decide),
      show bytesOf "->" = [0x2D, 0x3E] from bytesOf_ofList _]
    rfl
  -- a word selects the branch for functions
  rw [typeWith_name k hn h (ends_cons (by decide) _)]
  show (do
    token "("
    let params ← listWith k []
    token "->"
    token "("
    return .fn params (← listWith k []) : Scan Ty) _ = _
  rw [scan_bind_of_ok (token_here bytesOf_parenOpen
    (skipped_of_solid (by decide) _)),
    scan_bind_of_ok (listWith_takes k hps (by omega)
      (skipped_textOfList hps _)),
    scan_bind_of_ok harrow,
    scan_bind_of_ok (token_here bytesOf_parenOpen
      (by rw [skipped_space, skipped_of_solid (by decide)])),
    scan_bind_of_ok (listWith_takes k hrs (by omega)
      (skipped_textOfList hrs _))]
  rfl

-- ================================================================= structs

/-- A field of a struct type and its type as they are written. -/
def fieldBytes (f : String × Ty) : List UInt8 :=
  bytesOf f.1 ++ 0x3A :: 0x20 :: bytesOf f.2.text

/-- The printed fields of a struct are its items with commas between them. Where
they lie is not printed. -/
theorem bytesOf_textOfFields (fs : List (String × Ty)) (off : Int64) :
    bytesOf (Ty.textOfFields (Record.place off fs)) = listed
      (fs.map fieldBytes) := by
  match fs with
  | [] =>
      rw [Record.place, Ty.textOfFields]
      exact bytesOf_empty
  | [(n, t)] =>
      rw [Record.place, Record.place, Ty.textOfFields, bytesOf_append,
        bytesOf_append, bytesOf_colonSpace]
      simp [fieldBytes, listed]
  | (n, t) :: (m, u) :: fs =>
      -- the offsets do not show in the text, so the tail may start at any
      have htail := bytesOf_textOfFields ((m, u) :: fs) (off + t.slots)
      rw [Record.place] at htail
      rw [Record.place, Record.place, Ty.textOfFields, bytesOf_append,
        bytesOf_append, bytesOf_append, bytesOf_append,
        htail, bytesOf_commaSpace, bytesOf_colonSpace]
      · simp only [fieldBytes, List.map_cons, listed, further_cons,
          List.append_assoc, List.cons_append, List.nil_append]
      · simp

/-- What may stand as a field of a struct type. -/
def WrittenField (f : String × Ty) : Prop := isName f.1 = true ∧ Written f.2

/-- The name of a field is taken up to the colon. -/
theorem fieldName_takes {f : String × Ty} {part : String} (hf : WrittenField f)
    (h : skipped s = fieldBytes f ++ rest) :
    inPart part ident s = .ok (f.1,
        0x3A :: 0x20 :: (bytesOf f.2.text ++ rest)) := by
  rw [fieldBytes, List.append_assoc] at h
  exact inPart_eq_ok.mpr (ident_takes hf.1 h (ends_cons (by decide) _))

/-- The type of a field is taken behind the blank. -/
theorem fieldType_takes {f : String × Ty} {part : String} {fuel : Nat}
    (hf : WrittenField f) (hfuel : 2 * (bytesOf f.2.text).length ≤ fuel)
    (hrest : Ends rest) :
    inPart part (typeWith fuel) (0x20 :: (bytesOf f.2.text ++ rest))
        = .ok (f.2, rest) :=
  inPart_eq_ok.mpr (hf.2.reread fuel _ rest hfuel
    (by rw [skipped_space, (hf.2.opens.append _).skipped]) hrest)

/-- A field begins with its name. -/
theorem opens_field {f : String × Ty} (hf : WrittenField f) :
    Opens (fieldBytes f) := (opens_name hf.1).append _

/-- Further fields are read one by one. -/
theorem fieldsWith_further (news fs : List (String × Ty))
    (fuel : Nat) (hfs : fs ≠ []) (hnews : ∀ f ∈ news, WrittenField f)
    (hfuel : 2 * (further (news.map fieldBytes)).length + 2 ≤ fuel)
    (h : skipped s = further (news.map fieldBytes) ++ 0x7D :: rest) :
    fieldsWith fuel fs s = .ok (fs ++ news, rest) := by
  induction news generalizing fs fuel s with
  | nil =>
      obtain ⟨k, rfl⟩ : ∃ k, fuel = k + 1 := ⟨fuel - 1, by omega⟩
      rw [fieldsWith, scan_bind_of_ok (closes_here bytesOf_braceClose h)]
      simp [scan_pure_eq_ok]
  | cons f news ih =>
      obtain ⟨k, rfl⟩ : ∃ k, fuel = k + 1 := ⟨fuel - 1, by omega⟩
      have hf := hnews f List.mem_cons_self
      -- a comma and a blank stand in front of every further field
      have hfront : skipped s = 0x2C :: 0x20
          :: (fieldBytes f ++ (further (news.map fieldBytes)
          ++ 0x7D :: rest)) := by
        rw [h, List.map_cons, further_cons]
        simp only [List.append_assoc, List.cons_append]
      have hlen : (bytesOf f.2.text).length
          + (further (news.map fieldBytes)).length + 2
          ≤ (further ((f :: news).map fieldBytes)).length := by
        simp only [List.map_cons, further_cons, List.length_append,
          List.length_cons, fieldBytes]
        omega
      -- the rest is read with this field added
      have hmore :=
        ih (fs ++ [f]) k (by simp)
          (fun u hu => hnews u (List.mem_cons_of_mem _ hu)) (by omega)
        (skipped_further (by decide) _ rest)
      have hempty : fs.isEmpty = false := by
        rw [List.isEmpty_eq_false_iff]; exact hfs
      rw [fieldsWith,
        scan_bind_of_ok (closes_elsewhere bytesOf_braceClose
        hfront (by decide))]
      simp only [Bool.false_eq_true, if_false, hempty, Bool.not_false, if_true]
      rw [scan_bind_of_ok (token_here bytesOf_comma hfront),
        scan_bind_of_ok
          (fieldName_takes hf
          (by rw [skipped_space, ((opens_field hf).append _).skipped])),
        scan_bind_of_ok (token_here bytesOf_colon
          (skipped_of_solid (by decide) _)),
        scan_bind_of_ok (fieldType_takes hf (by omega)
          (ends_further (by decide) _ _)), hmore]
      simp

/-- The fields of a struct are read up to the closing brace, also if there are
none. -/
theorem fieldsWith_takes {fs : List (String × Ty)} (fuel : Nat)
    (hfs : ∀ f ∈ fs, WrittenField f)
    (hfuel : 2 * (bytesOf (Ty.textOfFields (Record.place 0 fs))).length + 2
      ≤ fuel)
    (h : skipped s = bytesOf (Ty.textOfFields (Record.place 0 fs))
      ++ 0x7D :: rest) :
    fieldsWith fuel [] s = .ok (fs, rest) := by
  obtain ⟨k, rfl⟩ : ∃ k, fuel = k + 1 := ⟨fuel - 1, by omega⟩
  cases fs with
  -- no fields, and the brace closes at once
  | nil =>
      rw [Record.place, Ty.textOfFields, bytesOf_empty] at h
      rw [fieldsWith, scan_bind_of_ok (closes_here bytesOf_braceClose h)]
      rfl
  | cons f fs =>
      have hf := hfs f List.mem_cons_self
      rw [bytesOf_textOfFields, List.map_cons, listed] at h hfuel
      rw [List.append_assoc] at h
      have hlen : (bytesOf f.2.text).length + 2 ≤ (fieldBytes f).length := by
        simp only [fieldBytes, List.length_append, List.length_cons]
        omega
      rw [List.length_append] at hfuel
      rw [fieldsWith,
        scan_bind_of_ok (closes_opening bytesOf_braceClose (.inr (.inr rfl)) h
        ((opens_field hf).append _))]
      simp only [Bool.false_eq_true, if_false, List.isEmpty_nil, Bool.not_true]
      rw [scan_bind_of_ok (fieldName_takes hf h),
        scan_bind_of_ok (token_here bytesOf_colon
          (skipped_of_solid (by decide) _)),
        scan_bind_of_ok (fieldType_takes hf (by omega)
          (ends_further (by decide) _ _))]
      exact fieldsWith_further fs [f] k (by simp)
        (fun u hu => hfs u (List.mem_cons_of_mem _ hu)) (by omega)
        (skipped_further (by decide) _ rest)

/-- A struct is made of the fields between its braces, and they are placed again
as they were. -/
theorem recordWith_takes {n : String} {fs : List (String × Ty)} (fuel : Nat)
    (hfs : ∀ f ∈ fs, WrittenField f)
    (hfuel : 2 * (bytesOf (Ty.textOfFields (Record.place 0 fs))).length + 3
      ≤ fuel)
    (h : s = 0x7B :: (bytesOf (Ty.textOfFields (Record.place 0 fs))
      ++ 0x7D :: rest)) :
    recordWith fuel n s = .ok (Record.make n fs, rest) := by
  obtain ⟨k, rfl⟩ : ∃ k, fuel = k + 1 := ⟨fuel - 1, by omega⟩
  have hopens : ∀ w ∈ fs.map fieldBytes, Opens w :=
    List.forall_mem_map.mpr fun f hf => opens_field (hfs f hf)
  -- the fields begin with a name, so nothing is skipped in front of them
  have hfields :
      skipped (bytesOf (Ty.textOfFields (Record.place 0 fs)) ++ 0x7D :: rest) =
      bytesOf (Ty.textOfFields (Record.place 0 fs)) ++ 0x7D :: rest := by
    rw [bytesOf_textOfFields]
    exact skipped_listed (by decide) hopens rest
  rw [recordWith,
    scan_bind_of_ok (token_here bytesOf_braceOpen
    (by rw [h, skipped_of_solid (by decide)])),
    scan_bind_of_ok (fieldsWith_takes k hfs (by omega) hfields)]
  rfl

/-- The printed form of a struct, taken apart. -/
theorem bytesOf_struct (n : String) (fs : List (String × Ty)) :
    bytesOf (Ty.text (Record.make n fs).toTy) =
    bytesOf n ++ 0x7B
        :: (bytesOf (Ty.textOfFields (Record.place 0 fs)) ++ [0x7D]) := by
  rw [Record.toTy, Record.make, Ty.text, bytesOf_append, bytesOf_append,
    bytesOf_append, bytesOf_braceOpen, bytesOf_braceClose]
  simp only [List.append_assoc, List.cons_append, List.nil_append]

/-- A struct without a name begins with its brace. -/
theorem written_unnamed {fs : List (String × Ty)}
    (hfs : ∀ f ∈ fs, WrittenField f) : Written (Record.make "" fs).toTy := by
  have htext := bytesOf_struct "" fs
  rw [bytesOf_empty, List.nil_append] at htext
  refine ⟨by rw [htext]; exact opens_cons (by decide) _, rfl,
    fun fuel s rest hfuel h hrest => ?_⟩
  rw [htext] at h hfuel
  simp only [List.append_assoc, List.cons_append, List.nil_append] at h
  simp only [List.length_cons, List.length_append, List.length_nil] at hfuel
  obtain ⟨k, rfl⟩ : ∃ k, fuel = k + 1 := ⟨fuel - 1, by omega⟩
  rw [typeWith_succ, h]
  show (do return (← recordWith k "").toTy : Scan Ty) _ = _
  rw [scan_bind_of_ok (recordWith_takes k hfs (by omega) rfl)]
  rfl

/-- A name that no other type begins with. -/
def isRecordName (n : String) : Prop := isName n = true
    ∧ n ∉ ["felt", "bool", "u32", "fn"]

/-- A word that is no type by itself names a struct, if a brace is next. -/
theorem afterName_record {n : String} (hn : isRecordName n) (fuel : Nat)
    (front : List UInt8) : afterName fuel front (some n) = (do
      if (← get).head? = some 0x7B then return (← recordWith fuel n).toTy
      else failAt front (.unknownType n)) := by
  have hne := hn.2
  unfold afterName
  split <;> simp_all

/-- A struct with a name. -/
theorem written_record {n : String} {fs : List (String × Ty)}
    (hn : isRecordName n) (hfs : ∀ f ∈ fs, WrittenField f) :
    Written (Record.make n fs).toTy := by
  have htext := bytesOf_struct n fs
  refine ⟨by rw [htext]; exact (opens_name hn.1).append _, rfl,
    fun fuel s rest hfuel h hrest => ?_⟩
  rw [htext] at h hfuel
  simp only [List.append_assoc, List.cons_append, List.nil_append] at h
  simp only [List.length_cons, List.length_append, List.length_nil] at hfuel
  have hpos := (opens_name hn.1).length_pos
  obtain ⟨k, rfl⟩ : ∃ k, fuel = k + 1 := ⟨fuel - 1, by omega⟩
  rw [typeWith_name k hn.1 h (ends_cons (by decide) _), afterName_record hn]
  show (do return (← recordWith k n).toTy : Scan Ty) _ = _
  rw [scan_bind_of_ok (recordWith_takes k hfs (by omega) rfl)]
  rfl

-- ======================================================= what a reader answers

/-- If the closing token was not seen, nothing was taken. -/
theorem closes_eq_ok {t : String} {b : Bool} (h : closes t s = .ok (b, s')) :
    b = false → s' = s := by
  rintro rfl
  rw [closes] at h
  obtain ⟨o, s₁, ho, h⟩ := scan_bind_eq_ok.mp h
  obtain ⟨ho', rfl⟩ := scan_pure_eq_ok.mp h
  unfold attempt at ho
  split at ho
  · cases ho
    cases ho'
  · cases ho
    rfl

/-- The length of an array that was read is not negative. -/
theorem arrayLength_spec {n : Int64}
    (h : arrayLength s = .ok (n, s')) : 0 ≤ n.toInt := by
  unfold arrayLength at h
  split at h
  · rename_i k t hk
    have hrange := number_spec hk
    split at h
    · cases h
    · cases h
      rw [Int64.toInt_ofInt_of_le (by omega) (by omega)]
      omega
  · cases h

/-- The types that can be written, form by form. -/
inductive Formed : Ty → Prop
  | unknown : Formed .unknown
  | felt : Formed .felt
  | bool : Formed .bool
  | u32 : Formed .u32
  | unit : Formed .unit
  | ptr {t : Ty} : Formed t → Formed (.ptr t)
  | array {t : Ty} {n : Int64} : Formed t → 0 ≤ n.toInt → Formed (.array t n)
  | tuple {ts : List Ty} : ts ≠ [] → (∀ t ∈ ts, Formed t) → Formed (.tuple ts)
  | struct {n : String} {fs : List (String × Ty)} : n = "" ∨ isRecordName n →
      (∀ f ∈ fs, isName f.1 = true) → (∀ f ∈ fs, Formed f.2) → Formed
      (.struct n (Record.place 0 fs))
  | fn {ps rs : List Ty} : (∀ t ∈ ps, Formed t) → (∀ t ∈ rs, Formed t) →
    Formed (.fn ps rs)

/-- Each form is read back. -/
theorem Formed.written {t : Ty} (h : Formed t) : Written t := by
  induction h with
  | unknown => exact written_unknown
  | felt => exact written_felt
  | bool => exact written_bool
  | u32 => exact written_u32
  | unit => exact written_unit
  | ptr _ ih => exact written_ptr ih
  | array _ hn ih => exact written_array ih hn
  | @tuple ts hne _ ih =>
      -- one element is written with a comma behind it, two or more are not
      match ts, hne, ih with
      | [], hne, _ => exact absurd rfl hne
      | [t], _, ih => exact written_single (ih t List.mem_cons_self)
      | t :: u :: ts, _, ih => exact written_tuple ih
  | struct hn hnames _ ih =>
      -- a record without a name begins with its brace
      rcases hn with rfl | hn
      · exact written_unnamed fun f hf => ⟨hnames f hf, ih f hf⟩
      · exact written_record hn fun f hf => ⟨hnames f hf, ih f hf⟩
  | fn _ _ ihp ihr => exact written_fn ihp ihr

mutual

/-- Whatever the reader answers is a type that can be written. -/
theorem typeWith_formed (fuel : Nat) {s s' : List UInt8} {t : Ty}
    (h : typeWith fuel s = .ok (t, s')) : Formed t := by
  match fuel with
  | 0 =>
      rw [typeWith] at h
      cases h
  | fuel + 1 =>
      rw [typeWith_succ] at h
      generalize skipped s = front at h
      revert h
      split
      -- by the first byte: none, a question mark, a star, a bracket, a
      -- parenthesis, a brace, or the start of a word
      · exact fun h => nomatch h
      · intro h
        cases h
        exact .unknown
      · intro h
        rw [set_bind] at h
        obtain ⟨u, s₁, hu, h⟩ := scan_bind_eq_ok.mp h
        cases h
        exact .ptr (typeWith_formed fuel hu)
      · intro h
        rw [set_bind] at h
        obtain ⟨u, s₁, hu, h⟩ := scan_bind_eq_ok.mp h
        obtain ⟨-, s₂, -, h⟩ := scan_bind_eq_ok.mp h
        obtain ⟨n, s₃, hn, h⟩ := scan_bind_eq_ok.mp h
        obtain ⟨-, s₄, -, h⟩ := scan_bind_eq_ok.mp h
        cases h
        exact .array (typeWith_formed fuel hu) (arrayLength_spec hn)
      · intro h
        rw [set_bind] at h
        obtain ⟨b, s₁, hb, h⟩ := scan_bind_eq_ok.mp h
        cases b with
        | true =>
            cases h
            exact .unit
        | false =>
            obtain ⟨⟨us, comma⟩, s₂, hus, hlast⟩ := scan_bind_eq_ok.mp h
            obtain rfl := closes_eq_ok hb rfl
            obtain ⟨hformed, hne⟩ := elemsWith_formed fuel hus (by simp)
            -- one type in parentheses is that type, unless a comma follows it
            match us, comma, hlast, hformed, hne (.inr hb) with
            | [], _, _, _, hne => exact absurd rfl hne
            | [u], false, hlast, hformed, _ =>
                cases hlast
                exact hformed _ List.mem_cons_self
            | [u], true, hlast, hformed, hne =>
                cases hlast
                exact .tuple hne hformed
            | u :: v :: vs, _, hlast, hformed, hne =>
                cases hlast
                exact .tuple hne hformed
      · intro h
        obtain ⟨r, s₁, hr, h⟩ := scan_bind_eq_ok.mp h
        cases h
        obtain ⟨fs, rfl, hnames, hfs⟩ := recordWith_formed fuel hr
        exact .struct (.inl rfl) hnames hfs
      · intro h
        obtain ⟨o, s₁, ho, h⟩ := scan_bind_eq_ok.mp h
        match o with
        | none => cases h
        | some n =>
            exact afterName_formed fuel (attempt_ident_spec ho) h
termination_by (fuel, 0)

/-- The same behind a word. -/
theorem afterName_formed (fuel : Nat) {n : String} {front s s' : List UInt8}
    {t : Ty} (hn : isName n = true)
    (h : afterName fuel front (some n) s = .ok (t, s')) : Formed t := by
  -- the four words of the types that have no other name
  by_cases hrecord : n ∈ ["felt", "bool", "u32", "fn"]
  · simp only [List.mem_cons, List.not_mem_nil, or_false] at hrecord
    rcases hrecord with rfl | rfl | rfl | rfl
    · cases h
      exact .felt
    · cases h
      exact .bool
    · cases h
      exact .u32
    · obtain ⟨-, s₁, -, h⟩ := scan_bind_eq_ok.mp h
      obtain ⟨ps, s₂, hps, h⟩ := scan_bind_eq_ok.mp h
      obtain ⟨-, s₃, -, h⟩ := scan_bind_eq_ok.mp h
      obtain ⟨-, s₄, -, h⟩ := scan_bind_eq_ok.mp h
      obtain ⟨rs, s₅, hrs, h⟩ := scan_bind_eq_ok.mp h
      cases h
      exact .fn (listWith_formed fuel hps (by simp))
        (listWith_formed fuel hrs (by simp))
  -- any other word names a record
  · rw [afterName_record ⟨hn, hrecord⟩] at h
    obtain ⟨left, s₁, -, h⟩ := scan_bind_eq_ok.mp h
    split at h
    · obtain ⟨r, s₂, hr, h⟩ := scan_bind_eq_ok.mp h
      cases h
      obtain ⟨fs, rfl, hnames, hfs⟩ := recordWith_formed fuel hr
      exact .struct (.inr ⟨hn, hrecord⟩) hnames hfs
    · cases h
termination_by (fuel, 1)

/-- The elements of a tuple can be written. There is one at least, unless the
parenthesis was closed at once. -/
theorem elemsWith_formed (fuel : Nat) {ts us : List Ty} {comma b : Bool}
    {s s' : List UInt8} (h : elemsWith fuel ts comma s = .ok ((us, b), s'))
    (hts : ∀ t ∈ ts, Formed t) :
    (∀ u ∈ us, Formed u)
      ∧ (ts ≠ [] ∨ closes ")" s = .ok (false, s) → us ≠ []) := by
  match fuel with
  | 0 =>
      rw [elemsWith] at h
      cases h
  | fuel + 1 =>
      rw [elemsWith] at h
      obtain ⟨closed, s₁, hclosed, h⟩ := scan_bind_eq_ok.mp h
      cases closed with
      | true =>
          cases h
          refine ⟨hts, ?_⟩
          rintro (hne | hopen)
          · exact hne
          · rw [hopen] at hclosed
            cases hclosed
      | false =>
          simp only [Bool.false_eq_true, if_false] at h
          by_cases hempty : ts.isEmpty = true
          · rw [if_pos hempty] at h
            obtain ⟨t, s₂, ht, h⟩ := scan_bind_eq_ok.mp h
            obtain ⟨hus, hne⟩ := elemsWith_formed fuel h
              (List.forall_mem_singleton.mpr (typeWith_formed fuel ht))
            exact ⟨hus, fun _ => hne (.inl (by simp))⟩
          -- behind the first element comes a comma, and then the end or the
          -- next one
          · rw [if_neg hempty] at h
            obtain ⟨-, s₂, -, h⟩ := scan_bind_eq_ok.mp h
            obtain ⟨closed, s₃, -, h⟩ := scan_bind_eq_ok.mp h
            cases closed with
            | true =>
                cases h
                exact ⟨hts, fun _ => by simpa using hempty⟩
            | false =>
                simp only [Bool.false_eq_true, if_false] at h
                obtain ⟨t, s₄, ht, h⟩ := scan_bind_eq_ok.mp h
                obtain ⟨hus, hne⟩ := elemsWith_formed fuel h
                  (List.forall_mem_append.mpr ⟨hts,
                  List.forall_mem_singleton.mpr (typeWith_formed fuel ht)⟩)
                exact ⟨hus, fun _ => hne (.inl (by simp))⟩
termination_by (fuel, 0)

/-- The fields of a struct have names and types that can be written. -/
theorem recordWith_formed (fuel : Nat) {n : String} {r : Record}
    {s s' : List UInt8} (h : recordWith fuel n s = .ok (r, s')) :
    ∃ fs, r = Record.make n fs
      ∧ (∀ f ∈ fs, isName f.1 = true) ∧ ∀ f ∈ fs, Formed f.2 := by
  match fuel with
  | 0 =>
      rw [recordWith] at h
      cases h
  | fuel + 1 =>
      rw [recordWith] at h
      obtain ⟨-, s₁, -, h⟩ := scan_bind_eq_ok.mp h
      obtain ⟨fs, s₂, hfs, h⟩ := scan_bind_eq_ok.mp h
      cases h
      exact ⟨fs, rfl, fieldsWith_formed fuel hfs (by simp) (by simp)⟩
termination_by (fuel, 0)

/-- Fields that are read go behind those that there were, and all of them can be
written. -/
theorem fieldsWith_formed (fuel : Nat) {fs gs : List (String × Ty)}
    {s s' : List UInt8} (h : fieldsWith fuel fs s = .ok (gs, s'))
    (hnames : ∀ f ∈ fs, isName f.1 = true) (hfs : ∀ f ∈ fs, Formed f.2) :
    (∀ g ∈ gs, isName g.1 = true) ∧ ∀ g ∈ gs, Formed g.2 := by
  match fuel with
  | 0 =>
      rw [fieldsWith] at h
      cases h
  | fuel + 1 =>
      rw [fieldsWith] at h
      obtain ⟨closed, s₁, hclosed, h⟩ := scan_bind_eq_ok.mp h
      cases closed with
      | true =>
          cases h
          exact ⟨hnames, hfs⟩
      | false =>
          simp only [Bool.false_eq_true, if_false] at h
          -- with the comma read where there are fields already
          have hrest : ∃ s₂, (inPart "field name" ident >>= fun name => do
              token ":"
              let t ← inPart ("field " ++ name) (typeWith fuel)
              fieldsWith fuel (fs ++ [(name, t)]) : Scan (List (String × Ty)))
                s₂ = .ok (gs, s') := by
            split at h
            · obtain ⟨-, s₂, -, h⟩ := scan_bind_eq_ok.mp h
              exact ⟨s₂, h⟩
            · exact ⟨s₁, h⟩
          obtain ⟨s₂, h⟩ := hrest
          obtain ⟨n, s₃, hn, h⟩ := scan_bind_eq_ok.mp h
          obtain ⟨-, s₄, -, h⟩ := scan_bind_eq_ok.mp h
          obtain ⟨t, s₅, ht, h⟩ := scan_bind_eq_ok.mp h
          have hname : isName n = true := ident_spec (inPart_eq_ok.mp hn)
          have htype : Formed t := typeWith_formed fuel (inPart_eq_ok.mp ht)
          exact fieldsWith_formed fuel h
            (List.forall_mem_append.mpr ⟨hnames,
            List.forall_mem_singleton.mpr hname⟩)
            (List.forall_mem_append.mpr ⟨hfs,
            List.forall_mem_singleton.mpr htype⟩)
termination_by (fuel, 0)

/-- Types that are read go behind those that there were, and all of them can be
written. -/
theorem listWith_formed (fuel : Nat) {ts us : List Ty} {s s' : List UInt8}
    (h : listWith fuel ts s = .ok (us, s')) (hts : ∀ t ∈ ts, Formed t) :
    ∀ u ∈ us, Formed u := by
  match fuel with
  | 0 =>
      rw [listWith] at h
      cases h
  | fuel + 1 =>
      rw [listWith] at h
      obtain ⟨closed, s₁, hclosed, h⟩ := scan_bind_eq_ok.mp h
      cases closed with
      | true =>
          cases h
          exact hts
      | false =>
          simp only [Bool.false_eq_true, if_false] at h
          -- with the comma read where there are elements already
          have hrest :
              ∃ s₂, (typeWith fuel >>= fun t => listWith fuel (ts ++ [t]) :
                  Scan (List Ty)) s₂ =
              .ok (us, s') := by
            split at h
            · obtain ⟨-, s₂, -, h⟩ := scan_bind_eq_ok.mp h
              exact ⟨s₂, h⟩
            · exact ⟨s₁, h⟩
          obtain ⟨s₂, h⟩ := hrest
          obtain ⟨t, s₃, ht, h⟩ := scan_bind_eq_ok.mp h
          exact listWith_formed fuel h
            (List.forall_mem_append.mpr ⟨hts,
            List.forall_mem_singleton.mpr (typeWith_formed fuel ht)⟩)
termination_by (fuel, 0)

end

/-- A type that was read has one of the forms. -/
theorem type_formed {t : Ty} (h : type s = .ok (t, s')) : Formed t := by
  obtain ⟨left, s₁, -, h⟩ := scan_bind_eq_ok.mp h
  exact typeWith_formed _ h

/-- A type that was read is read again wherever it is written. -/
theorem type_written {t : Ty} (h : type s = .ok (t, s')) : Written t :=
  (type_formed h).written

/-- Skipping takes from the front and nothing else. -/
theorem skipped_length_le (s : List UInt8) : (skipped s).length ≤ s.length := by
  have hboth : ∀ s : List UInt8, (skipped s).length ≤ s.length
      ∧ (skippedLine s).length ≤ s.length := by
    intro s
    induction s with
    | nil => exact ⟨Nat.le_refl _, Nat.le_refl _⟩
    | cons b s ih =>
        refine ⟨?_, ?_⟩
        · rw [skipped]
          split
          · exact Nat.le_succ_of_le ih.1
          · split
            · exact Nat.le_succ_of_le ih.2
            · exact Nat.le_refl _
        · rw [skippedLine]
          split
          · exact Nat.le_succ_of_le ih.1
          · exact Nat.le_succ_of_le ih.2
  exact (hboth s).1

/-- There are turns enough for every type that is there, two for each byte. -/
theorem type_takes {t : Ty} (ht : Written t)
    (h : skipped s = bytesOf t.text ++ rest) (hrest : Ends rest) :
    type s = .ok (t, rest) := by
  have hlen := skipped_length_le s
  rw [h, List.length_append] at hlen
  exact ht.reread (2 * s.length + 2) s rest (by omega) h hrest

/-- A value and its type, as they are written. -/
theorem typedValue_takes {v : ValueId} {t : Ty}
    (hv : IsValueId v) (ht : Written t)
    (h : skipped s = bytesOf (valueText v ++ ": " ++ t.text) ++ rest)
    (hrest : Ends rest) : typedValue s = .ok ((v, t), rest) := by
  rw [bytesOf_append, bytesOf_append, bytesOf_colonSpace] at h
  simp only [List.append_assoc, List.cons_append, List.nil_append] at h
  rw [typedValue,
    scan_bind_of_ok (valueId_takes hv h (ends_cons (by decide) _)),
    scan_bind_of_ok (token_here bytesOf_colon (skipped_of_solid (by decide) _)),
    scan_bind_of_ok
      (type_takes ht (by rw [skipped_space, (ht.opens.append _).skipped])
      hrest)]
  rfl

/-- A value with its type that was read can be written. -/
theorem typedValue_formed {v : ValueId} {t : Ty}
    (h : typedValue s = .ok ((v, t), s')) : IsValueId v ∧ Formed t := by
  obtain ⟨v, s₁, hv, h⟩ := scan_bind_eq_ok.mp h
  obtain ⟨-, s₂, -, h⟩ := scan_bind_eq_ok.mp h
  obtain ⟨t, s₃, ht, h⟩ := scan_bind_eq_ok.mp h
  cases h
  exact ⟨valueId_spec hv, type_formed ht⟩

/-- A value with its type that was read is read again. -/
theorem typedValue_spec {v : ValueId} {t : Ty}
    (h : typedValue s = .ok ((v, t), s')) : IsValueId v ∧ Written t :=
  (typedValue_formed h).imp_right Formed.written

end MirBackend.Source
