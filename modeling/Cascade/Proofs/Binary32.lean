import Cascade.Binary32
import Cascade.Proofs.Source.Lexicon
import Mathlib.Data.Rat.Cast.Order
import Mathlib.Order.Monotone.Basic
import Mathlib.Tactic.Linarith
import Mathlib.Tactic.Ring
/-!
The numbers that finite ones stand for.

Magnitudes rise with their ranks, within a binade step by step and across its end without a gap. So
numeric equality, the unit interval and the total order are what they are among rationals, but for
the two zeros: these are equal as numbers, and the total order puts the negative one first.
-/
namespace Cascade.Binary32

theorem units_first {step : Nat} (inside : step < binade) : units step = step := by
  have first : scale step = 0 := by
    rw [scale, Nat.div_eq_of_lt inside]
  simp [units, first]

theorem units_binade (exponent : Nat) {step : Nat} (inside : step < binade) :
    units ((exponent + 1) * binade + step) = (binade + step) * 2 ^ exponent := by
  have same : scale ((exponent + 1) * binade + step) = exponent := by
    have place : ((exponent + 1) * binade + step) / binade = exponent + 1 := by
      rw [Nat.mul_comm, Nat.mul_add_div (by decide), Nat.div_eq_of_lt inside, Nat.add_zero]
    rw [scale, place, Nat.add_sub_cancel]
  have left : (exponent + 1) * binade + step - exponent * binade = binade + step := by
    rw [Nat.succ_mul]
    omega
  rw [units, same, left]
  rfl

/-- The steps of a binade are twice as long as those of the one before, whose last one ends where
it begins. -/
theorem units_succ (rank : Nat) : units rank < units (rank + 1) := by
  have split : rank / binade * binade + rank % binade = rank := Nat.div_add_mod' rank binade
  have inside : rank % binade < binade := Nat.mod_lt _ (by decide)
  generalize rank / binade = exponent, rank % binade = step at split inside
  subst split
  rcases Nat.lt_or_eq_of_le (Nat.succ_le_of_lt inside) with next | last
  · cases exponent with
    | zero =>
        rw [Nat.zero_mul, Nat.zero_add, units_first inside, units_first next]
        exact Nat.lt_succ_self step
    | succ exponent =>
        rw [Nat.add_assoc, units_binade exponent inside, units_binade exponent next]
        exact Nat.mul_lt_mul_of_pos_right (by omega) (Nat.two_pow_pos exponent)
  · have beyond : exponent * binade + step + 1 = (exponent + 1) * binade + 0 := by
      rw [Nat.succ_mul]
      omega
    rw [beyond, units_binade exponent (by decide)]
    cases exponent with
    | zero =>
        rw [Nat.zero_mul, Nat.zero_add, units_first inside]
        simpa using inside
    | succ exponent =>
        rw [units_binade exponent inside, Nat.pow_succ]
        calc (binade + step) * 2 ^ exponent
          _ < (binade + binade) * 2 ^ exponent :=
            Nat.mul_lt_mul_of_pos_right (by omega) (Nat.two_pow_pos exponent)
          _ = (binade + 0) * (2 ^ exponent * 2) := by ring

theorem units_strictMono : StrictMono units := strictMono_nat_of_lt_succ units_succ

theorem units_eq_zero (rank : Fin 0x7f800000) : units rank = 0 ↔ rank = 0 := by
  have none : units 0 = 0 := units_first (by decide)
  rw [units_strictMono.injective.eq_iff' none, Fin.ext_iff]
  rfl

def signedUnits (negative : Bool) (rank : Nat) : ℤ :=
  if negative then -(units rank) else units rank

/-- What a finite number stands for. -/
def value? : Binary32 → Option ℚ
  | .finite negative rank => some (signedUnits negative rank / unitsInOne)
  | .infinite _ | .nan => none

theorem unitsInOne_pos : (0 : ℚ) < unitsInOne := by
  rw [unitsInOne]
  exact_mod_cast Nat.two_pow_pos 149

variable {x y : Binary32} {v w : ℚ}

/-- Two numbers are compared as their units are. -/
theorem compare_units (known : x.value? = some v) (other : y.value? = some w) :
    ∃ s a t b, x = .finite s a ∧ y = .finite t b ∧
      (v = w ↔ signedUnits s a = signedUnits t b) ∧
      (v < w ↔ signedUnits s a < signedUnits t b) := by
  cases x with
  | infinite => cases known
  | nan => cases known
  | finite s a =>
      cases y with
      | infinite => cases other
      | nan => cases other
      | finite t b =>
          obtain rfl := Option.some.inj known
          obtain rfl := Option.some.inj other
          refine ⟨s, a, t, b, rfl, rfl, ?_, ?_⟩
          · rw [div_left_inj' unitsInOne_pos.ne', Int.cast_inj]
          · rw [div_lt_div_iff_of_pos_right unitsInOne_pos, Int.cast_lt]

theorem numEq_iff (known : x.value? = some v) (other : y.value? = some w) :
    x.numEq y = true ↔ v = w := by
  obtain ⟨s, a, t, b, rfl, rfl, equal, -⟩ := compare_units known other
  have injective : units a = units b ↔ a = b := by
    rw [units_strictMono.injective.eq_iff, Fin.ext_iff]
  have first := units_eq_zero a
  have second := units_eq_zero b
  rw [equal]
  cases s <;> cases t <;> simp only [numEq, signedUnits] <;> grind

/-- The total order is the numeric one, but that the negative zero comes before the other. -/
theorem precedes_iff (known : x.value? = some v) (other : y.value? = some w) :
    x.precedes y = true ↔ v < w ∨ x = signedZero true ∧ y = zero := by
  obtain ⟨s, a, t, b, rfl, rfl, -, less⟩ := compare_units known other
  have order (c d : Fin 0x7f800000) : units c < units d ↔ c.val < d.val :=
    units_strictMono.lt_iff_lt
  have first := units_eq_zero a
  have second := units_eq_zero b
  have := order a b
  have := order b a
  rw [less]
  cases s <;> cases t <;> simp only [precedes, place, signedUnits, signedZero, zero] <;> grind

theorem inUnitInterval_iff :
    x.inUnitInterval = true ↔ ∃ v, x.value? = some v ∧ 0 ≤ v ∧ v ≤ 1 := by
  cases x with
  | infinite => simp [inUnitInterval, value?]
  | nan => simp [inUnitInterval, value?]
  | finite s a =>
      have low : (0 : ℚ) ≤ signedUnits s a / unitsInOne ↔ 0 ≤ signedUnits s a := by
        rw [le_div_iff₀ unitsInOne_pos, zero_mul, Int.cast_nonneg_iff]
      have high : (signedUnits s a / unitsInOne : ℚ) ≤ 1 ↔ signedUnits s a ≤ unitsInOne := by
        rw [div_le_one₀ unitsInOne_pos]
        exact_mod_cast Iff.rfl
      have none := units_eq_zero a
      simp only [value?, Option.some.injEq, exists_eq_left', low, high]
      cases s <;> simp only [inUnitInterval, signedUnits] <;> grind

/-! Decimals and the numbers they are read as.
A word of digits is read by its value, and one with a point as many places further down as there are
digits behind the point. So every number that lexed has a value. -/
open Token Text

section Reading
variable {u v w : List Char}

theorem unsigned_whole (digits : w ∈ several isDigit) (negative : Bool) :
    unsigned? negative w = some (ofScientific negative (decimalValue w) 0) := by
  have all := several_all digits
  have front : w.takeWhile isDigit = w := List.takeWhile_eq_self_iff.mpr all
  have back : w.dropWhile isDigit = [] := List.dropWhile_eq_nil_iff.mpr all
  have some := List.length_eq_zero_iff.not.mp (several_length digits)
  simp [unsigned?, front, back, some, exponent?]

theorem unsigned_pointed (whole : u ∈ several isDigit) (fraction : v ∈ several isDigit)
    (negative : Bool) : unsigned? negative (u ++ '.' :: v) =
      some (ofScientific negative (decimalValue (u ++ v)) (-v.length)) := by
  have point : isDigit '.' = false := rfl
  have front : (u ++ '.' :: v).takeWhile isDigit = u := by
    rw [List.takeWhile_append_of_pos (several_all whole)]
    simp [point]
  have back : (u ++ '.' :: v).dropWhile isDigit = '.' :: v := by
    rw [List.dropWhile_append_of_pos (several_all whole)]
    simp [point]
  have places : v.takeWhile isDigit = v := List.takeWhile_eq_self_iff.mpr (several_all fraction)
  have tail : v.dropWhile isDigit = [] := List.dropWhile_eq_nil_iff.mpr (several_all fraction)
  have some := List.length_eq_zero_iff.not.mp (several_length whole)
  simp [unsigned?, front, back, places, tail, some, exponent?]

theorem unsigned_decimal (word : w ∈ decimal) (negative : Bool) :
    ∃ n, unsigned? negative w = some n := by
  rcases decimal_cases word with digits | ⟨u, whole, v, fraction, rfl⟩
  · exact ⟨_, unsigned_whole digits negative⟩
  · exact ⟨_, unsigned_pointed whole fraction negative⟩

theorem lower_digit {c : Char} (digit : isDigit c = true) : lower c = c := by
  rw [isDigit_iff] at digit
  have upper : ¬ ('A' ≤ c ∧ c ≤ 'Z') := by
    simp only [Char.le_def, UInt32.le_iff_toNat_le, Char.toNat_val]
    simp only [Char.reduceToNat]
    omega
  simp [lower, upper]

theorem magnitude_decimal (word : w ∈ decimal) :
    ∀ text ∈ ["inf", "infinity", "nan"], String.ofList (w.map lower) ≠ text := by
  obtain ⟨c, v, rfl, digit⟩ := numeral_head (k := .number) word
  intro text member same
  have first := congrArg (fun s : String => s.toList.head?) same
  simp only [String.toList_ofList, List.map_cons, List.head?_cons, lower_digit digit] at first
  simp only [List.mem_cons, List.not_mem_nil, or_false] at member
  rcases member with rfl | rfl | rfl <;> simp at first <;> subst first <;> cases digit

/-- A decimal is no word, so it is read by its digits, behind a minus sign as a negative number. -/
theorem ofText_decimal (word : w ∈ decimal) :
    ofText? w = unsigned? false w ∧ ofText? ('-' :: w) = unsigned? true w := by
  have other := magnitude_decimal word
  have endless := not_or.mpr ⟨other "inf" (by simp), other "infinity" (by simp)⟩
  have unsigned : ∀ negative, (if String.ofList (w.map lower) = "inf" ∨
      String.ofList (w.map lower) = "infinity" then some (.infinite negative)
      else if String.ofList (w.map lower) = "nan" then some .nan
      else unsigned? negative w) = unsigned? negative w := by
    intro negative
    rw [if_neg endless, if_neg (other "nan" (by simp))]
  constructor
  · unfold ofText?
    split
    case h_1 negative magnitude sign =>
      have bare : (negative, magnitude) = (false, w) := by
        obtain ⟨c, v, rfl, digit⟩ := numeral_head (k := .number) word
        split at sign
        case h_1 same => cases (List.cons.inj same).1; cases digit
        case h_2 same => cases (List.cons.inj same).1; cases digit
        case h_3 => exact sign.symm
      obtain ⟨rfl, rfl⟩ := Prod.mk.inj bare
      exact unsigned false
  · exact unsigned true

/-- A number that lexed has a value. -/
theorem ofText_number (word : w ∈ Kind.number.language) : ∃ n, ofText? w = some n := by
  rcases mem_signed.mp word with bare | ⟨v, digits, rfl⟩
  · rw [(ofText_decimal bare).1]
    exact unsigned_decimal bare false
  · rw [(ofText_decimal digits).2]
    exact unsigned_decimal digits true

end Reading

/-! The text of a finite number is read as that number.
The digits that are written read back because they were chosen so, or because they are those of the
exact value. Written without an exponent they are a decimal, and its sign is read by itself. -/

def isFinite : Binary32 → Bool
  | .finite _ _ => true
  | .infinite _ | .nan => false

theorem nearestEven_exact (n : Nat) {d : Nat} (some : 0 < d) : nearestEven (n * d) d = n := by
  rw [nearestEven, Nat.mul_div_cancel n some, Nat.mul_mod_left, if_pos (.inl some)]

/-- A magnitude is its own nearest one. -/
theorem nearestRank_units (rank : Nat) {d : Nat} (some : 0 < d) :
    nearestRank (units rank * d) d = rank := by
  have split : rank / binade * binade + rank % binade = rank := Nat.div_add_mod' rank binade
  have inside : rank % binade < binade := Nat.mod_lt _ (by decide)
  generalize rank / binade = exponent, rank % binade = step at split inside
  subst split
  cases exponent with
  | zero =>
      rw [Nat.zero_mul, Nat.zero_add, units_first inside, nearestRank, Nat.mul_div_cancel step some]
      have small : step.log2 - 23 = 0 := by
        rcases Nat.eq_zero_or_pos step with rfl | positive
        · rfl
        · have bound := (Nat.log2_lt (Nat.ne_of_gt positive)).mpr (show step < 2 ^ 23 from inside)
          omega
      rw [small]
      simpa using nearestEven_exact step some
  | succ exponent =>
      rw [units_binade exponent inside, nearestRank, Nat.mul_div_cancel _ some]
      have place : ((binade + step) * 2 ^ exponent).log2 = 23 + exponent := by
        have positive : (binade + step) * 2 ^ exponent ≠ 0 :=
          Nat.mul_ne_zero (by simp [binade]) (Nat.two_pow_pos exponent).ne'
        rw [Nat.log2_eq_iff positive, Nat.pow_add, Nat.add_right_comm, Nat.pow_add]
        have low : 2 ^ 23 ≤ binade + step := Nat.le_add_right _ _
        have high : binade + step < 2 ^ (23 + 1) := by
          have : binade = 2 ^ 23 := rfl
          omega
        exact ⟨Nat.mul_le_mul_right _ low,
          Nat.mul_lt_mul_of_pos_right high (Nat.two_pow_pos exponent)⟩
      rw [place, Nat.add_sub_cancel_left, Nat.mul_assoc, Nat.mul_comm (2 ^ exponent)]
      have exact := nearestEven_exact (binade + step)
        (Nat.mul_pos some (Nat.two_pow_pos exponent))
      change nearestEven _ (d * 2 ^ exponent) + _ = _
      rw [exact, Nat.succ_mul]
      omega

variable {rank : Fin 0x7f800000}

theorem readsAs_iff {decimal : Scientific} : decimal.readsAs rank = true ↔
    ofScientific false decimal.digits decimal.exponent = .finite false rank := beq_iff_eq

theorem exactly_reads (positive : rank ≠ 0) : (exactly rank).readsAs rank = true := by
  have digits : units rank * Nat.pow 5 149 ≠ 0 :=
    Nat.mul_ne_zero (fun none => positive ((units_eq_zero rank).mp none)) (by decide)
  have long : ¬ (units rank * Nat.pow 5 149).log2 + 152 ≤ 3 * (148 + 1) := by
    have least : 2 ^ (2 * 149) ≤ units rank * Nat.pow 5 149 := by
      rw [Nat.pow_mul]
      have fives : (2 ^ 2) ^ 149 ≤ 5 ^ 149 := Nat.pow_le_pow_left (by decide) 149
      have positive := Nat.pos_of_ne_zero (Nat.mul_ne_zero_iff.mp digits).1
      exact Nat.le_trans fives (Nat.le_mul_of_pos_left _ positive)
    have bound := (Nat.le_log2 digits).mpr least
    omega
  have scale : units rank * Nat.pow 5 149 * unitsInOne = units rank * Nat.pow 10 149 := by
    rw [Nat.mul_assoc]
    rfl
  have same : ofScientific false (exactly rank).digits (exactly rank).exponent =
      ofRatio false (units rank * Nat.pow 5 149) (Nat.pow 10 149) := by
    change ofScientific false (units rank * Nat.pow 5 149) (Int.negSucc 148) = _
    rw [ofScientific, if_neg digits]
    exact if_neg long
  rw [Scientific.readsAs, same, ofRatio, scale, nearestRank_units rank (by decide), ofRank,
    dif_pos rank.isLt]
  exact beq_self_eq_true _

theorem onGrid_reads {exponent : Int} {decimal : Scientific}
    (chosen : onGrid? rank exponent = some decimal) : decimal.readsAs rank = true := by
  unfold onGrid? at chosen
  split at chosen
  extract_lets low high at chosen
  split at chosen
  case h_1 below above =>
    split at chosen
    case isTrue => exact Option.some.inj chosen ▸ below
    case isFalse => exact Option.some.inj chosen ▸ above
  case h_2 below _ => exact Option.some.inj chosen ▸ below
  case h_3 above => exact Option.some.inj chosen ▸ above
  case h_4 => cases chosen

/-- The digits that are written for a magnitude above zero read back to it. -/
theorem shortest_reads (positive : rank ≠ 0) : (shortest rank).readsAs rank = true := by
  rw [shortest]
  cases found : [1, 2, 3, 4, 5, 6, 7, 8, 9].findSome? (withDigits? rank) with
  | none => exact exactly_reads positive
  | some decimal =>
      obtain ⟨count, -, chosen⟩ := List.exists_of_findSome?_eq_some found
      exact onGrid_reads chosen

theorem decimalValue_toDigits (n : Nat) : decimalValue (Nat.toDigits 10 n) = n :=
  Nat.ofDigitChars_toDigits (by decide) (by decide)

theorem decimalValue_append_zeros (digits : List Char) (count : Nat) :
    decimalValue (digits ++ List.replicate count '0') = decimalValue digits * 10 ^ count := by
  have shifted : Nat.ofDigitChars 10 (List.replicate count '0') (decimalValue digits) =
      10 ^ count * decimalValue digits := Nat.ofDigitChars_replicate_zero
  rw [decimalValue, List.foldl_append]
  exact shifted.trans (Nat.mul_comm _ _)

theorem decimalValue_zeros_append (count : Nat) (digits : List Char) :
    decimalValue (List.replicate count '0' ++ digits) = decimalValue digits := by
  have none : Nat.ofDigitChars 10 (List.replicate count '0') 0 = 10 ^ count * 0 :=
    Nat.ofDigitChars_replicate_zero
  rw [decimalValue, List.foldl_append]
  exact congrArg (fun start => Nat.ofDigitChars 10 digits start) none

theorem several_of_all {belongs : Char → Bool} {w : List Char} (some : w ≠ [])
    (all : ∀ c ∈ w, belongs c = true) : w ∈ several belongs := by
  obtain ⟨c, rest, rfl⟩ := List.exists_cons_of_ne_nil some
  exact mem_several.mpr ⟨c, rest, rfl, List.forall_mem_cons.mp all⟩

theorem toDigits_several (n : Nat) : Nat.toDigits 10 n ∈ several isDigit := by
  refine several_of_all Nat.toDigits_ne_nil fun c member => ?_
  have digit := Nat.isDigit_of_mem_toDigits (by decide) (by decide) member
  simp only [Char.isDigit, Bool.and_eq_true, decide_eq_true_eq, UInt32.le_iff_toNat_le,
    ge_iff_le] at digit
  exact isDigit_iff.mpr digit

section Positional
variable {digits : List Char} (negative : Bool)

theorem positional_whole (number : digits ∈ several isDigit) (e : Nat)
    (bounded : ofScientific negative (decimalValue digits) e ≠ .infinite negative) :
    plain.positional digits e ∈ several isDigit ∧
      unsigned? negative (plain.positional digits e) =
        some (ofScientific negative (decimalValue digits) e) := by
  have text : plain.positional digits e = digits ++ List.replicate e '0' := List.append_nil _
  have word : digits ++ List.replicate e '0' ∈ several isDigit := by
    obtain ⟨c, rest, rfl, first, others⟩ := mem_several.mp number
    refine mem_several.mpr ⟨c, _, rfl, first, fun d member => ?_⟩
    rcases List.mem_append.mp member with inside | zero
    · exact others d inside
    · rw [List.eq_of_mem_replicate zero]
      rfl
  rw [text]
  refine ⟨word, ?_⟩
  rw [unsigned_whole word, decimalValue_append_zeros]
  congr 1
  by_cases none : decimalValue digits = 0
  · simp [ofScientific, none]
  · have small : ¬ 39 ≤ e := fun large => bounded (by
      change ofScientific negative _ (Int.ofNat e) = _
      rw [ofScientific, if_neg none]
      exact if_pos large)
    have both (v k : Nat) (some : v ≠ 0) (few : ¬ 39 ≤ k) :
        ofScientific negative v k = ofRatio negative (v * 10 ^ k) 1 := by
      change ofScientific negative _ (Int.ofNat k) = _
      rw [ofScientific, if_neg some]
      exact if_neg few
    have shifted := both (decimalValue digits * 10 ^ e) 0
      (Nat.mul_ne_zero none (Nat.pow_pos (by decide)).ne') (by decide)
    rw [Nat.pow_zero, Nat.mul_one] at shifted
    exact shifted.trans (both _ e none small).symm

theorem positional_pointed (number : digits ∈ several isDigit) (e : Nat) :
    plain.positional digits (.negSucc e) ∈ decimal ∧
      unsigned? negative (plain.positional digits (.negSucc e)) =
        some (ofScientific negative (decimalValue digits) (.negSucc e)) := by
  have read {u v : List Char} (whole : u ∈ several isDigit) (fraction : v ∈ several isDigit)
      (value : decimalValue (u ++ v) = decimalValue digits) (places : v.length = e + 1) :
      u ++ '.' :: v ∈ decimal ∧ unsigned? negative (u ++ '.' :: v) =
        some (ofScientific negative (decimalValue digits) (.negSucc e)) := by
    refine ⟨Language.append_mem_mul whole ?_, ?_⟩
    · exact mem_optional.mpr (.inr (mem_exactly_mul.mpr ⟨v, fraction, rfl⟩))
    · rw [unsigned_pointed whole fraction, value, places]
      rfl
  have all := several_all number
  rw [Layout.positional]
  split
  case isTrue inside =>
    refine read (several_of_all ?_ fun c member => all c (List.mem_of_mem_take member))
      (several_of_all ?_ fun c member => all c (List.mem_of_mem_drop member)) ?_ ?_
    · rw [← List.length_pos_iff_ne_nil, List.length_take]
      omega
    · rw [← List.length_pos_iff_ne_nil, List.length_drop]
      omega
    · rw [List.take_append_drop]
    · rw [List.length_drop]
      omega
  case isFalse outside =>
    have zeros : ∀ c ∈ List.replicate (e + 1 - digits.length) '0' ++ digits, isDigit c = true := by
      intro c member
      rcases List.mem_append.mp member with zero | inside
      · rw [List.eq_of_mem_replicate zero]
        rfl
      · exact all c inside
    refine read (u := ['0']) (v := List.replicate (e + 1 - digits.length) '0' ++ digits)
      (several_of_all (by simp) (by simp; rfl)) (several_of_all ?_ zeros) ?_ ?_
    · have some := several_length number
      rw [← List.length_pos_iff_ne_nil, List.length_append]
      omega
    · have first : ['0'] ++ (List.replicate (e + 1 - digits.length) '0' ++ digits) =
          List.replicate (e + 1 - digits.length + 1) '0' ++ digits := rfl
      rw [first, decimalValue_zeros_append]
    · rw [List.length_append, List.length_replicate]
      omega

end Positional

theorem ofScientific_sign {digits : Nat} {exponent : Int} {rank : Fin 0x7f800000}
    (reads : ofScientific false digits exponent = .finite false rank) (negative : Bool) :
    ofScientific negative digits exponent = .finite negative rank := by
  have ratio {num den : Nat} (same : ofRatio false num den = .finite false rank) :
      ofRatio negative num den = .finite negative rank := by
    rw [ofRatio, ofRank] at same ⊢
    split at same
    case isTrue bound =>
      rw [dif_pos bound]
      exact congrArg _ (Binary32.finite.inj same).2
    case isFalse => cases same
  unfold ofScientific at reads ⊢
  split at reads
  case isTrue none =>
    rw [if_pos none]
    exact congrArg _ (Binary32.finite.inj reads).2
  case isFalse some =>
    rw [if_neg some]
    cases exponent with
    | ofNat e =>
        simp only at reads ⊢
        split at reads
        case isTrue => cases reads
        case isFalse small => rw [if_neg small, ratio reads]
    | negSucc e =>
        simp only at reads ⊢
        split at reads
        case isTrue tiny =>
          rw [if_pos tiny]
          exact congrArg _ (Binary32.finite.inj reads).2
        case isFalse large => rw [if_neg large, ratio reads]

/-- The digits of a decimal that reads as a number are read as that number. -/
theorem positional_reads {written : Scientific} {negative : Bool} {rank : Fin 0x7f800000}
    (reads : ofScientific negative written.digits written.exponent = .finite negative rank) :
    plain.positional (Nat.toDigits 10 written.digits) written.exponent ∈ decimal ∧
      unsigned? negative (plain.positional (Nat.toDigits 10 written.digits) written.exponent) =
        some (.finite negative rank) := by
  obtain ⟨n, exponent⟩ := written
  have number := toDigits_several n
  have value := decimalValue_toDigits n
  cases exponent with
  | ofNat e =>
      have read : ofScientific negative (decimalValue (Nat.toDigits 10 n)) e =
          .finite negative rank := by
        rw [value]
        exact reads
      obtain ⟨word, same⟩ := positional_whole negative number e (by simp [read])
      refine ⟨?_, same.trans (congrArg some read)⟩
      exact Language.mem_mul.mpr ⟨_, word, [], mem_optional.mpr (.inl rfl), List.append_nil _⟩
  | negSucc e =>
      obtain ⟨word, same⟩ := positional_pointed negative number e
      rw [value] at same
      exact ⟨word, same.trans (congrArg some reads)⟩

-- No power of ten makes this layout write an exponent, so the decimal may be any.
theorem plain_positional (written : Scientific) :
    (let digits := Nat.toDigits 10 written.digits
     let power := written.exponent + digits.length - 1
     if plain.scientific power then Layout.withExponent digits power
     else plain.positional digits written.exponent) =
      plain.positional (Nat.toDigits 10 written.digits) written.exponent := rfl

theorem magnitude_eq (positive : rank ≠ 0) : plain.magnitude rank =
    plain.positional (Nat.toDigits 10 (shortest rank).digits) (shortest rank).exponent := by
  have above : ¬ rank.val = 0 := fun none => positive (Fin.ext none)
  rw [Layout.magnitude, if_neg above]
  exact plain_positional (shortest rank)

/-- A magnitude is written as a decimal that is read as it. -/
theorem magnitude_reads (negative : Bool) (rank : Fin 0x7f800000) :
    plain.magnitude rank ∈ decimal ∧
      unsigned? negative (plain.magnitude rank) = some (.finite negative rank) := by
  by_cases zero : rank = 0
  · subst zero
    have digit : ['0'] ∈ several isDigit := several_of_all (by simp) (by simp; rfl)
    refine ⟨?_, unsigned_whole digit negative⟩
    exact Language.mem_mul.mpr ⟨_, digit, [], mem_optional.mpr (.inl rfl), rfl⟩
  · have reads := ofScientific_sign (readsAs_iff.mp (shortest_reads zero)) negative
    rw [magnitude_eq zero]
    exact positional_reads reads

/-- A finite number is written as a number token that is read as it. -/
theorem text_reads {x : Binary32} (finite : x.isFinite = true) :
    x.text.toList ∈ Kind.number.language ∧ ofText? x.text.toList = some x := by
  cases x with
  | infinite => cases finite
  | nan => cases finite
  | finite negative rank =>
      obtain ⟨word, value⟩ := magnitude_reads negative rank
      rw [text, String.toList_ofList, Layout.text]
      cases negative with
      | false =>
          exact ⟨mem_signed.mpr (.inl word), (ofText_decimal word).1.trans value⟩
      | true =>
          exact ⟨mem_signed.mpr (.inr ⟨_, word, rfl⟩), (ofText_decimal word).2.trans value⟩

end Cascade.Binary32
