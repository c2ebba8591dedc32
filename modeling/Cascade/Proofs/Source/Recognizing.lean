import Cascade.Proofs.Source.Joining
/-!
Recognizing sources a token at a time.

A stage says what may come next. One step looks at one token, at its kind and its text and whether
it touches the token before it, and at nothing after it. Checked stage by stage, a source is
accepted when it can be read, and it is refused at the token at which reading fails.
-/
namespace Cascade

/-- What is being read, and what is to come after it. -/
inductive Stage where
  /-- A statement, or the end of the source. -/
  | top
  /-- A compound that has to begin. -/
  | part
  /-- Behind a simple selector. -/
  | compound
  | name (needed : Needed) (next : Stage)
  | brace (next : Stage)
  /-- Between declarations. -/
  | block (next : Stage)
  /-- Behind the name of a property. -/
  | property (next : Stage)
  /-- Among values, within some functions; a name may just have been read that could be called. -/
  | values (next : Stage) (depth : Nat) (callable : Bool)
  /-- Between the blocks of an animation. -/
  | frames
  /-- A moment of an animation that has to come. -/
  | moment
  /-- Behind a moment of an animation. -/
  | moments
  /-- Behind the name of a decorator. -/
  | type
  /-- In an at-rule that is passed over, within some braces. -/
  | skip (depth : Nat)
  deriving DecidableEq

namespace Stage

def begin (t : Token) : Except Needed Stage :=
  match t.kind with
  | .ident | .star | .hexColor | .pseudoClass => .ok .compound
  | .dot => .ok (.name .className .compound)
  | .hash => .ok (.name .idName .compound)
  | _ => .error .selector

def atRule (keyword : String) : Stage :=
  match keyword with
  | "keyframes" => .name .keyframesName (.brace .frames)
  | "decorator" => .name .decoratorName .type
  | "spritesheet" => .name .spriteSheetName (.brace (.block .top))
  | _ => .skip 0

def value (next : Stage) (depth : Nat) (callable : Bool) (t : Token) : Except Needed Stage :=
  if ComponentValue.endsBefore t.kind then
    if depth = 0 then .ok (if t.kind = .braceClose then next else .block next)
    else .error (if t.kind = .important then .value else .functionEnd)
  else if t.kind = .parenOpen ∧ callable ∧ t.touches then .ok (.values next (depth + 1) false)
  else if t.kind = .parenClose ∧ depth ≠ 0 then .ok (.values next (depth - 1) false)
  else if (ComponentValue.ofToken? t).isSome then .ok (.values next depth (t.kind = .ident))
  else .error .value

/-- The stage behind a token, or what was needed in its place. -/
def step (s : Stage) (t : Token) : Except Needed Stage :=
  match s with
  | .top => if t.kind = .atKeyword then .ok (atRule t.tail) else begin t
  | .part => begin t
  | .compound =>
    match t.kind with
    | .greaterThan | .plus | .tilde | .comma => .ok .part
    | .braceOpen => .ok (.block .top)
    | kind => if Compound.canBegin kind then begin t else .error (.token .braceOpen)
  | .name needed next => if t.kind = .ident then .ok next else .error needed
  | .brace next => if t.kind = .braceOpen then .ok next else .error (.token .braceOpen)
  | .block next =>
    match t.kind with
    | .braceClose => .ok next
    | .semicolon => .ok (.block next)
    | .ident => .ok (.property next)
    | _ => .error .propertyName
  | .property next =>
    if t.kind = .pseudoClass ∧ t.touches ∨ t.kind = .colon then .ok (.values next 0 false)
    else .error (.token .colon)
  | .values next depth callable => value next depth callable t
  | .frames =>
    if t.kind = .braceClose then .ok .top
    else if (KeyframeRule.time? t).isSome then .ok .moments else .error .keyframeTime
  | .moment => if (KeyframeRule.time? t).isSome then .ok .moments else .error .keyframeTime
  | .moments =>
    match t.kind with
    | .comma => .ok .moment
    | .braceOpen => .ok (.block .frames)
    | _ => .error (.token .braceOpen)
  | .type =>
    match t.kind with
    | .pseudoClass => .ok (.brace (.block .top))
    | .colon => .ok (.name .decoratorType (.brace (.block .top)))
    | _ => .error (.token .colon)
  | .skip depth =>
    match t.kind with
    | .semicolon => .ok (if depth = 0 then .top else .skip depth)
    | .braceOpen => .ok (.skip (depth + 1))
    | .braceClose => .ok (if depth ≤ 1 then .top else .skip (depth - 1))
    | _ => .ok (.skip depth)

def missing : Stage → Option Needed
  | .top => none
  | .part => some .selector
  | .compound | .brace _ | .moments => some (.token .braceOpen)
  | .name needed _ => some needed
  | .block _ => some (.token .braceClose)
  | .property _ | .type => some (.token .colon)
  | .values _ depth _ => some (if depth = 0 then .token .braceClose else .functionEnd)
  | .frames | .moment => some .keyframeTime
  | .skip _ => some .atRuleEnd

/-- Whether the tokens can come next, up to the end of the source. -/
def check (s : Stage) : List Token → Except ParseError Unit
  | [] => match s.missing with
    | none => .ok ()
    | some needed => .error (.ended needed)
  | t :: rest => match s.step t with
    | .ok next => next.check rest
    | .error needed => .error (.unexpected t needed)

end Stage

def Reading.andCheck {α : Type} (r : Reading α) (s : Stage) : Except ParseError Unit :=
  match r with
  | .error e => .error e
  | .ok (_, left) => s.check left

section Reading
variable {α β : Type} {s : Stage}

@[simp]
theorem Reading.andCheck_error (e : ParseError) :
    Reading.andCheck (.error e : Reading α) s = .error e := rfl

@[simp]
theorem Reading.andCheck_ok (a : α) (left : List Token) :
    Reading.andCheck (.ok (a, left)) s = s.check left := rfl

theorem Reading.andCheck_map (r : Reading α) (f : α × List Token → β) (s : Stage) :
    Reading.andCheck (r.map fun p => (f p, p.2)) s = r.andCheck s := by
  cases r <;> rfl

theorem Reading.andCheck_name (needed : Needed) (ts : List Token) (s : Stage) :
    (Reading.name needed ts).andCheck s = (Stage.name needed s).check ts := by
  cases ts with
  | nil => rfl
  | cons t rest =>
      by_cases same : t.kind = .ident <;>
        simp [Reading.name, Reading.require, Stage.check, Stage.step, andCheck, same]

theorem Reading.andCheck_brace (ts : List Token) (s : Stage) :
    (Reading.expect .braceOpen ts).andCheck s = (Stage.brace s).check ts := by
  cases ts with
  | nil => rfl
  | cons t rest =>
      by_cases same : t.kind = .braceOpen <;>
        simp [Reading.expect, Reading.require, Stage.check, Stage.step, andCheck, same]

end Reading

section Selectors
variable {t : Token} {ts rest : List Token}

theorem Stage.check_qualifier (t : Token) (rest : List Token) :
    match SimpleSelector.qualifier? (t :: rest) with
    | .error e => Stage.part.check (t :: rest) = .error e ∧ Compound.canBegin t.kind = true
    | .ok none => t.kind = .ident ∨ t.kind = .star ∨
      Stage.part.check (t :: rest) = .error (.unexpected t .selector)
    | .ok (some (_, left)) =>
      Stage.part.check (t :: rest) = Stage.compound.check left ∧
        Compound.canBegin t.kind = true := by
  rcases t with ⟨kind, text, gap, position, line⟩
  cases kind
  case dot =>
    have named := Reading.andCheck_name .className rest .compound
    simp only [SimpleSelector.qualifier?]
    cases result : Reading.name .className rest <;> rw [result] at named
    all_goals exact ⟨named.symm, rfl⟩
  case hash =>
    have named := Reading.andCheck_name .idName rest .compound
    simp only [SimpleSelector.qualifier?]
    cases result : Reading.name .idName rest <;> rw [result] at named
    all_goals exact ⟨named.symm, rfl⟩
  case hexColor | pseudoClass => exact ⟨rfl, rfl⟩
  case ident => exact .inl rfl
  case star => exact .inr (.inl rfl)
  all_goals exact .inr (.inr rfl)

theorem Stage.check_canBegin (begins : Compound.canBegin t.kind = true) (rest : List Token) :
    Stage.compound.check (t :: rest) = Stage.part.check (t :: rest) := by
  rcases t with ⟨kind, text, gap, position, line⟩
  cases kind
  all_goals first | rfl | cases begins

theorem SimpleSelector.readQualifiers_check (ts : List Token) :
    (readQualifiers ts).andCheck .compound = Stage.compound.check ts := by
  fun_induction readQualifiers ts with
  | case1 => rfl
  | case2 t rest touching e failed =>
      have first := Stage.check_qualifier t rest
      rw [failed] at first
      rw [Stage.check_canBegin first.2, first.1]
      rfl
  | case3 => rfl
  | case4 t rest touching c left found used e failed ih =>
      have first := Stage.check_qualifier t rest
      rw [found] at first
      rw [Stage.check_canBegin first.2, first.1, ← ih, failed]
  | case5 t rest touching c left found used more left' others ih =>
      have first := Stage.check_qualifier t rest
      rw [found] at first
      rw [Stage.check_canBegin first.2, first.1, ← ih, others]
      rfl
  | case6 => rfl

theorem Compound.read_check (ts : List Token) :
    (Compound.read ts).andCheck .compound = Stage.part.check ts := by
  cases ts with
  | nil => rfl
  | cons t rest =>
      have qualified := Stage.check_qualifier t rest
      by_cases tag : t.kind = .ident
      · simp only [Compound.read, tag]
        refine (Reading.andCheck_map _ _ _).trans ?_
        rw [SimpleSelector.readQualifiers_check]
        simp [Stage.check, Stage.step, Stage.begin, tag]
      by_cases star : t.kind = .star
      · simp only [Compound.read, star]
        refine (Reading.andCheck_map _ _ _).trans ?_
        rw [SimpleSelector.readQualifiers_check]
        simp [Stage.check, Stage.step, Stage.begin, star]
      simp only [Compound.read]
      rcases result : SimpleSelector.qualifier? (t :: rest) with e | _ | ⟨c, left⟩
      all_goals rw [result] at qualified
      · rw [qualified.1]
        rfl
      · rw [(qualified.resolve_left tag).resolve_left star]
        rfl
      · rw [qualified.1, ← SimpleSelector.readQualifiers_check]
        exact Reading.andCheck_map _ _ _

theorem Combinator.read?_check (ts : List Token) :
    match Combinator.read? ts with
    | none => True
    | some (_, left) => Stage.compound.check ts = Stage.part.check left := by
  cases ts with
  | nil => trivial
  | cons t rest =>
      rcases t with ⟨kind, text, gap, position, line⟩
      cases kind
      all_goals trivial

theorem Selector.readRest_check (ts : List Token) :
    (readRest ts).andCheck .compound = Stage.compound.check ts := by
  fun_induction readRest ts with
  | case1 => rfl
  | case2 ts combinator after sign e failed =>
      have begun := Combinator.read?_check ts
      have first := Compound.read_check after
      rw [sign] at begun
      rw [begun, ← first, failed]
      rfl
  | case3 ts combinator after sign compound left found used shorter e failed ih =>
      have begun := Combinator.read?_check ts
      have first := Compound.read_check after
      rw [sign] at begun
      rw [begun, ← first, found, Reading.andCheck_ok, ← ih, failed]
  | case4 ts combinator after sign compound left found used shorter more left' others ih =>
      have begun := Combinator.read?_check ts
      have first := Compound.read_check after
      rw [sign] at begun
      rw [others] at ih
      rw [begun, ← first, found]
      exact ih

/-- Behind the compounds of a selector no other one begins. -/
theorem Selector.readRest_ends {cs : List (Combinator × Compound)}
    (read : readRest ts = .ok (cs, rest)) : Combinator.read? rest = none := by
  fun_induction readRest ts generalizing cs with
  | case1 ts nothing =>
      obtain ⟨-, rfl⟩ := Prod.mk.inj (Except.ok.inj read)
      exact nothing
  | case2 => cases read
  | case3 => cases read
  | case4 ts combinator after sign compound left found used shorter more left' others ih =>
      obtain ⟨-, rfl⟩ := Prod.mk.inj (Except.ok.inj read)
      exact ih others

theorem Selector.read_check (ts : List Token) :
    (Selector.read ts).andCheck .compound = Stage.part.check ts := by
  rw [← Compound.read_check, Selector.read]
  split
  case h_1 e failed => rw [failed, Reading.andCheck_error, Reading.andCheck_error]
  case h_2 first left found =>
    rw [found, Reading.andCheck_ok, ← Selector.readRest_check]
    exact Reading.andCheck_map _ _ _

theorem Selector.read_ends {selector : Selector} (read : Selector.read ts = .ok (selector, rest)) :
    Combinator.read? rest = none := by
  obtain ⟨left, -, others⟩ := read_parts read
  exact readRest_ends others

theorem Stage.check_comma (comma : t.kind = .comma) (rest : List Token) :
    Stage.compound.check (t :: rest) = Stage.part.check rest := by
  simp [Stage.check, Stage.step, comma]

theorem Selector.readList_check (ts : List Token) :
    (readList ts).andCheck .compound = Stage.part.check ts := by
  fun_induction readList ts with
  | case1 ts e failed =>
      rw [← Selector.read_check, failed]
      rfl
  | case2 ts selector found =>
      rw [← Selector.read_check, found]
      rfl
  | case3 ts selector t rest found comma used e failed ih =>
      rw [← Selector.read_check, found, Reading.andCheck_ok, Stage.check_comma comma, ← ih, failed]
  | case4 ts selector t rest found comma used more left others ih =>
      rw [others] at ih
      rw [← Selector.read_check, found]
      exact ih.trans (Stage.check_comma comma rest).symm
  | case5 ts selector t rest found other =>
      rw [← Selector.read_check, found]
      rfl

/-- Behind a list of selectors nothing goes on with it. -/
theorem Selector.readList_ends {selectors : List Selector}
    (read : readList ts = .ok (selectors, rest)) :
    Combinator.read? rest = none ∧ ∀ t ∈ rest.head?, t.kind ≠ .comma := by
  fun_induction readList ts generalizing selectors with
  | case1 => cases read
  | case2 ts selector found =>
      obtain ⟨-, rfl⟩ := Prod.mk.inj (Except.ok.inj read)
      exact ⟨rfl, by simp⟩
  | case3 => cases read
  | case4 ts selector t others found comma used more left left' ih =>
      obtain ⟨-, rfl⟩ := Prod.mk.inj (Except.ok.inj read)
      exact ih left'
  | case5 ts selector t others found other =>
      obtain ⟨-, rfl⟩ := Prod.mk.inj (Except.ok.inj read)
      exact ⟨read_ends found, by simpa using other⟩

end Selectors

section Declarations
variable {t : Token} {ts rest : List Token} (next : Stage)

def ComponentValue.callable : List ComponentValue → Bool
  | .ident _ :: _ => true
  | _ => false

theorem ComponentValue.callable_iff {values : List ComponentValue} :
    callable values = true ↔ ∃ name before, values = .ident name :: before := by
  rcases values with _ | ⟨_ | _, before⟩ <;> simp [callable]

theorem ComponentValue.callable_ofToken {value : ComponentValue} (found : ofToken? t = some value)
    (values : List ComponentValue) : callable (value :: values) = decide (t.kind = .ident) := by
  rcases t with ⟨kind, text, gap, position, line⟩
  cases kind
  case number | dimension =>
    obtain ⟨n, -, rfl⟩ := Option.map_eq_some_iff.mp found
    rfl
  all_goals
    cases found
    try rfl

-- A token that neither calls a name nor closes a function is a value by itself.
theorem ComponentValue.check_single {outer : List (String × List ComponentValue)}
    {current : List ComponentValue} (ends : ¬ endsBefore t.kind = true)
    (uncalled : ∀ name before, t.kind = .parenOpen → current = .ident name :: before → False)
    (inside : ∀ name before others,
      t.kind = .parenClose → outer = (name, before) :: others → False) :
    (Stage.values next outer.length (callable current)).check (t :: rest) =
      if (ofToken? t).isSome then
        (Stage.values next outer.length (decide (t.kind = .ident))).check rest
      else .error (.unexpected t .value) := by
  have call : ¬ (t.kind = .parenOpen ∧ callable current = true ∧ t.touches = true) := by
    rintro ⟨paren, called, -⟩
    obtain ⟨name, before, same⟩ := callable_iff.mp called
    exact uncalled name before paren same
  have close : ¬ (t.kind = .parenClose ∧ outer.length ≠ 0) := by
    rintro ⟨paren, some⟩
    cases outer with
    | nil => exact some rfl
    | cons first others => exact inside first.1 first.2 others paren rfl
  simp only [Stage.check, Stage.step, Stage.value, if_neg ends, if_neg call, if_neg close]
  cases (ofToken? t).isSome <;> rfl

theorem ComponentValue.readFrom_check (outer : List (String × List ComponentValue))
    (current : List ComponentValue) (ts : List Token) :
    (readFrom outer current ts).andCheck (.values next 0 false) =
      (Stage.values next outer.length (callable current)).check ts := by
  fun_induction readFrom outer current ts with
  | case1 outer current closed => simp_all [Stage.check, Stage.missing]
  | case2 outer current opened => simp_all [Stage.check, Stage.missing]
  | case3 outer current t rest ends closed => simp_all [Stage.check, Stage.step, Stage.value]
  | case4 outer current t rest ends opened => simp_all [Stage.check, Stage.step, Stage.value]
  | case5 outer t rest ends name before paren touching ih =>
    simp_all [Stage.check, Stage.step, Stage.value, callable]
  | case6 outer t rest ends name before paren apart ih =>
    simp_all [Stage.check, Stage.step, Stage.value, callable, ofToken?]
  | case7 current t rest ends name before outer close ih =>
    simp_all [Stage.check, Stage.step, Stage.value, callable]
  | case8 outer current t rest ends value found uncalled inside ih =>
    rw [check_single next ends uncalled inside, found, ih, callable_ofToken found]
    rfl
  | case9 outer current t rest ends nothing uncalled inside =>
    rw [check_single next ends uncalled inside, nothing]
    rfl

/-- Values end before a token that ends them, or where the source ends. -/
theorem ComponentValue.readFrom_ends {outer : List (String × List ComponentValue)}
    {current values : List ComponentValue} (read : readFrom outer current ts = .ok (values, rest)) :
    ∀ t ∈ rest.head?, endsBefore t.kind = true := by
  fun_induction readFrom outer current ts
  case case1 =>
    obtain ⟨-, rfl⟩ := Prod.mk.inj (Except.ok.inj read)
    simp
  case case3 t left ends closed =>
    obtain ⟨-, rfl⟩ := Prod.mk.inj (Except.ok.inj read)
    simpa using ends
  all_goals simp_all

theorem Stage.check_dropIf (ts : List Token) :
    (Stage.block next).check (Token.dropIf .semicolon ts).2 = (Stage.block next).check ts := by
  cases ts with
  | nil => rfl
  | cons t rest =>
      by_cases semicolon : t.kind = .semicolon
      · simp [Token.dropIf, Stage.check, Stage.step, semicolon]
      · simp [Token.dropIf, semicolon]

theorem Declaration.readEnd_check (ends : ∀ t ∈ ts.head?, ComponentValue.endsBefore t.kind = true) :
    (Stage.block next).check (readEnd ts).2 = (Stage.values next 0 false).check ts := by
  rw [readEnd, Stage.check_dropIf]
  cases ts with
  | nil => rfl
  | cons t rest =>
      have last := ends t rfl
      rcases t with ⟨kind, text, gap, position, line⟩
      cases kind
      case important | semicolon | braceClose => rfl
      all_goals cases last

theorem Declaration.readValues_check (name : Token) (attached : Option Token) (ts : List Token) :
    (readValues name attached ts).andCheck (.block next) =
      (Stage.values next 0 false).check ts := by
  have read := ComponentValue.readFrom_check next [] [] ts
  rw [readValues]
  cases result : ComponentValue.readAll ts with
  | error e =>
      rw [ComponentValue.readAll] at result
      rw [result] at read
      exact read
  | ok found =>
      rw [ComponentValue.readAll] at result
      rw [result] at read
      have ends := ComponentValue.readFrom_ends result
      exact (readEnd_check next ends).trans read

theorem Declaration.read_check (declares : t.kind ≠ .braceClose ∧ t.kind ≠ .semicolon) :
    (Declaration.read (t :: rest)).andCheck (.block next) =
      (Stage.block next).check (t :: rest) := by
  by_cases named : t.kind = .ident
  · have begun : (Stage.block next).check (t :: rest) = (Stage.property next).check rest := by
      simp [Stage.check, Stage.step, named]
    rw [begun, Declaration.read, Reading.name, Reading.require, if_pos named]
    cases rest with
    | nil => rfl
    | cons u left =>
        by_cases touching : u.kind = .pseudoClass ∧ u.touches = true
        · simp [attached?, touching, readValues_check, Stage.check, Stage.step]
        · by_cases colon : u.kind = .colon
          · simp [attached?, Reading.expect, Reading.require, colon, readValues_check, Stage.check,
              Stage.step]
          · simp [attached?, Reading.expect, Reading.require, touching, colon, Stage.check,
              Stage.step]
  · have refused : (Stage.block next).step t = .error .propertyName := by
      rcases t with ⟨kind, text, gap, position, line⟩
      cases kind
      case braceClose | semicolon | ident => simp_all
      all_goals rfl
    simp [Declaration.read, Reading.name, Reading.require, named, Stage.check, refused]

theorem Declaration.readList_check (ts : List Token) :
    (readList ts).andCheck (.block next) = (Stage.block next).check ts := by
  fun_induction readList ts with
  | case1 => rfl
  | case2 => rfl
  | case3 t rest inside semicolon ih =>
      rw [ih]
      simp [Stage.check, Stage.step, semicolon]
  | case4 t rest inside declares e failed =>
      rw [← read_check next ⟨inside, declares⟩, failed]
      rfl
  | case5 t rest inside declares d left found used e failed ih =>
      rw [← read_check next ⟨inside, declares⟩, found, Reading.andCheck_ok, ← ih, failed]
  | case6 t rest inside declares d left found used more left' others ih =>
      rw [others] at ih
      rw [← read_check next ⟨inside, declares⟩, found]
      exact ih

theorem Declaration.readList_ends {ds : List Declaration} (read : readList ts = .ok (ds, rest)) :
    ∀ t ∈ rest.head?, t.kind = .braceClose := by
  fun_induction readList ts generalizing ds <;> grind

theorem Reading.andCheck_close (ends : ∀ t ∈ ts.head?, t.kind = .braceClose) :
    (Reading.expect .braceClose ts).andCheck next = (Stage.block next).check ts := by
  cases ts with
  | nil => rfl
  | cons t rest =>
      have close := ends t rfl
      simp [Reading.expect, Reading.require, Stage.check, Stage.step, close]

theorem Declaration.readBlock_check (ts : List Token) :
    (readBlock ts).andCheck next = (Stage.brace (.block next)).check ts := by
  rw [← Reading.andCheck_brace, readBlock]
  rcases Reading.expect .braceOpen ts with e | ⟨t, left⟩
  · rfl
  · simp only [Reading.andCheck_ok]
    rw [← readList_check]
    rcases result : readList left with e | ⟨ds, left'⟩
    · rfl
    · simp only [Reading.andCheck_ok, Reading.andCheck_map (f := fun _ => ds)]
      exact Reading.andCheck_close next (readList_ends result)

end Declarations
section Statements
variable {t : Token} {ts rest : List Token}

theorem Stage.check_selected (nothing : Combinator.read? ts = none)
    (last : ∀ t ∈ ts.head?, t.kind ≠ .comma) :
    Stage.compound.check ts = (Stage.brace (.block .top)).check ts := by
  cases ts with
  | nil => rfl
  | cons t rest =>
      have other := last t rfl
      rcases t with ⟨kind, text, gap, position, line⟩
      cases kind
      case comma => contradiction
      all_goals first | rfl | cases nothing

theorem StyleRule.read_check (ts : List Token) :
    (StyleRule.read ts).andCheck .top = Stage.part.check ts := by
  rw [← Selector.readList_check, StyleRule.read]
  rcases result : Selector.readList ts with e | ⟨selectors, left⟩
  · rfl
  · obtain ⟨nothing, last⟩ := Selector.readList_ends result
    rw [Reading.andCheck_ok, Stage.check_selected nothing last, ← Declaration.readBlock_check]
    exact Reading.andCheck_map _ _ _

theorem KeyframeRule.readTimes_check (ts : List Token) :
    (readTimes ts).andCheck .moments = Stage.moment.check ts := by
  fun_induction readTimes ts <;> simp_all [Stage.check, Stage.step, Stage.missing]

/-- Behind the moments of a block no other one comes. -/
theorem KeyframeRule.readTimes_ends {times : List Binary32}
    (read : readTimes ts = .ok (times, rest)) : ∀ t ∈ rest.head?, t.kind ≠ .comma := by
  fun_induction readTimes ts generalizing times <;> grind

theorem Stage.check_timed (last : ∀ t ∈ ts.head?, t.kind ≠ .comma) :
    Stage.moments.check ts = (Stage.brace (.block .frames)).check ts := by
  cases ts with
  | nil => rfl
  | cons t rest =>
      have other := last t rfl
      rcases t with ⟨kind, text, gap, position, line⟩
      cases kind
      case comma => contradiction
      all_goals rfl

theorem Stage.check_frames (more : t.kind ≠ .braceClose) (rest : List Token) :
    Stage.frames.check (t :: rest) = Stage.moment.check (t :: rest) := by
  simp [Stage.check, Stage.step, more]

-- The moments and the declarations of one block.
theorem KeyframeRule.check_block (more : t.kind ≠ .braceClose) (rest : List Token) :
    Stage.frames.check (t :: rest) = match readTimes (t :: rest) with
      | .error e => .error e
      | .ok (_, left) => (Declaration.readBlock left).andCheck .frames := by
  rw [Stage.check_frames more, ← readTimes_check]
  rcases result : readTimes (t :: rest) with e | ⟨times, left⟩
  · rfl
  · rw [Reading.andCheck_ok, Stage.check_timed (readTimes_ends result)]
    exact (Declaration.readBlock_check .frames left).symm

theorem KeyframeRule.readList_check (ts : List Token) :
    (readList ts).andCheck .frames = Stage.frames.check ts := by
  fun_induction readList ts with
  | case1 => rfl
  | case2 => rfl
  | case3 t rest more e failed => simp [check_block more, failed]
  | case4 t rest more times left timed e failed =>
      simp [check_block more, timed, failed]
  | case5 t rest more times left timed ds left' block shorter less e failed ih =>
      simp only [check_block more, timed, block, Reading.andCheck_ok, ← ih, failed]
  | case6 t rest more times left timed ds left' block shorter less others left'' rest' ih =>
      rw [rest'] at ih
      simp only [check_block more, timed, block, Reading.andCheck_ok] at ih ⊢
      exact ih

theorem KeyframeRule.readList_ends {blocks : List KeyframeRule}
    (read : readList ts = .ok (blocks, rest)) :
    (Reading.expect .braceClose rest).andCheck .top = Stage.frames.check rest := by
  fun_induction readList ts generalizing blocks with
  | case2 t left close =>
      obtain ⟨-, rfl⟩ := Prod.mk.inj (Except.ok.inj read)
      simp [Reading.expect, Reading.require, Stage.check, Stage.step, close]
  | case6 t left more times after timed ds after' block shorter less others after'' found ih =>
      obtain ⟨-, rfl⟩ := Prod.mk.inj (Except.ok.inj read)
      exact ih found
  | _ => cases read

theorem KeyframesRule.read_check (line : Nat) (ts : List Token) :
    (KeyframesRule.read line ts).andCheck .top =
      (Stage.name .keyframesName (.brace .frames)).check ts := by
  rw [← Reading.andCheck_name, KeyframesRule.read]
  rcases Reading.name .keyframesName ts with e | ⟨name, left⟩
  · rfl
  · simp only [Reading.andCheck_ok]
    rw [← Reading.andCheck_brace]
    rcases Reading.expect .braceOpen left with e | ⟨t, left'⟩
    · rfl
    · simp only [Reading.andCheck_ok]
      rw [← KeyframeRule.readList_check]
      rcases result : KeyframeRule.readList left' with e | ⟨blocks, left''⟩
      · rfl
      · rw [Reading.andCheck_ok, ← KeyframeRule.readList_ends result]
        exact Reading.andCheck_map _ _ _

theorem DecoratorRule.readType_check (ts : List Token) :
    (readType ts).andCheck (.brace (.block .top)) = Stage.type.check ts := by
  cases ts with
  | nil => rfl
  | cons t rest =>
      have named := Reading.andCheck_name .decoratorType rest (.brace (.block .top))
      rcases t with ⟨kind, text, gap, position, line⟩
      cases kind
      case colon => exact (Reading.andCheck_map _ _ _).trans named
      all_goals rfl

theorem DecoratorRule.read_check (line : Nat) (ts : List Token) :
    (DecoratorRule.read line ts).andCheck .top = (Stage.name .decoratorName .type).check ts := by
  rw [← Reading.andCheck_name, DecoratorRule.read]
  rcases Reading.name .decoratorName ts with e | ⟨name, left⟩
  · rfl
  · simp only [Reading.andCheck_ok]
    rw [← readType_check]
    rcases readType left with e | ⟨type, left'⟩
    · rfl
    · simp only [Reading.andCheck_ok]
      rw [← Declaration.readBlock_check]
      exact Reading.andCheck_map _ _ _

theorem SpriteSheetRule.read_check (line : Nat) (ts : List Token) :
    (SpriteSheetRule.read line ts).andCheck .top =
      (Stage.name .spriteSheetName (.brace (.block .top))).check ts := by
  rw [← Reading.andCheck_name, SpriteSheetRule.read]
  rcases Reading.name .spriteSheetName ts with e | ⟨name, left⟩
  · rfl
  · simp only [Reading.andCheck_ok]
    rw [← Declaration.readBlock_check]
    exact Reading.andCheck_map _ _ _

theorem Statement.skip_check (depth : Nat) (ts : List Token) :
    Reading.andCheck ((skip depth ts).map fun left => ((none : Option Statement), left)) .top =
      (Stage.skip depth).check ts := by
  fun_induction skip depth ts with
  | case6 depth t rest close deep ih =>
      rw [ih]
      simp only [Stage.check, Stage.step, close, if_neg deep]
  | _ => simp_all [Stage.check, Stage.step, Stage.missing, Except.map]

theorem Statement.readAtRule_check (t : Token) (rest : List Token) :
    (readAtRule t rest).andCheck .top = (Stage.atRule t.tail).check rest := by
  unfold readAtRule
  split
  case h_1 same =>
    rw [same]
    exact (Reading.andCheck_map _ _ _).trans (KeyframesRule.read_check t.line rest)
  case h_2 same =>
    rw [same]
    exact (Reading.andCheck_map _ _ _).trans (DecoratorRule.read_check t.line rest)
  case h_3 same =>
    rw [same]
    exact (Reading.andCheck_map _ _ _).trans (SpriteSheetRule.read_check t.line rest)
  case h_4 keyframes decorator spritesheet =>
    rw [Stage.atRule.eq_4 _ keyframes decorator spritesheet]
    exact skip_check 0 rest

theorem Statement.read_check (t : Token) (rest : List Token) :
    (Statement.read (t :: rest)).andCheck .top = Stage.top.check (t :: rest) := by
  by_cases keyword : t.kind = .atKeyword
  · rw [Statement.read, if_pos keyword, readAtRule_check]
    simp [Stage.check, Stage.step, keyword]
  · rw [Statement.read, if_neg keyword]
    have begun : Stage.top.check (t :: rest) = Stage.part.check (t :: rest) := by
      simp [Stage.check, Stage.step, keyword]
    rw [begun, ← StyleRule.read_check]
    exact Reading.andCheck_map _ _ _

/-- A source is read when it is accepted a token at a time, and reading it fails as the check of
its tokens does. -/
theorem StyleSource.readStatements_check (ts : List Token) :
    (readStatements ts).map (fun _ => ()) = Stage.top.check ts := by
  fun_induction readStatements ts with
  | case1 => rfl
  | case2 t rest e failed =>
      rw [← Statement.read_check, failed]
      rfl
  | case3 t rest statement left found shorter e failed ih =>
      rw [← Statement.read_check, found, Reading.andCheck_ok, ← ih, failed]
  | case4 t rest statement left found shorter more others ih =>
      rw [← Statement.read_check, found, Reading.andCheck_ok, ← ih, others]
      rfl

end Statements
end Cascade
