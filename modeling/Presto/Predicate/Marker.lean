import Mathlib.Data.Prod.Lex
import Mathlib.Order.Cover
import Mathlib.Order.WithBot
import Presto.Support.Throwable

/-!
# Markers

A marker is a point of the continuous space of a type: just below, exactly at
or just above a value, or one of the two unbounded ends.  `Marker.compareTo`
is the comparison of the source; the linear order on markers is the
lexicographic one, and `compareTo_eq_lt_iff` and its companions connect them.
-/

namespace Presto.Predicate

/-- Where a marker stands relative to its value. -/
inductive Bound
  | below
  | exactly
  | above
  deriving DecidableEq, Repr

namespace Bound

def ordinal : Bound → ℕ
  | below => 0
  | exactly => 1
  | above => 2

theorem ordinal_injective : Function.Injective ordinal := by
  intro a b h
  cases a <;> cases b <;> simp_all [ordinal]

instance : LinearOrder Bound :=
  LinearOrder.lift' ordinal ordinal_injective

variable {b : Bound}

theorem lt_iff_ordinal_lt {a : Bound} : a < b ↔ a.ordinal < b.ordinal :=
  Iff.rfl

end Bound

/-- Without a value the bound tells the ends apart: `above` is lower unbounded
and `below` is upper unbounded. -/
structure Marker (α : Type*) where
  value : Option α
  bound : Bound
  valid : value = none → bound ≠ .exactly
  deriving DecidableEq

namespace Marker

variable {α : Type*}

def upperUnbounded : Marker α := ⟨none, .below, by simp⟩

def lowerUnbounded : Marker α := ⟨none, .above, by simp⟩

/-- The marker of a present value. -/
def mkValue (value : α) (bound : Bound) : Marker α := ⟨some value, bound, by simp⟩

def above (value : α) : Marker α := mkValue value .above

def exactly (value : α) : Marker α := mkValue value .exactly

def below (value : α) : Marker α := mkValue value .below

variable (m : Marker α)

def isUpperUnbounded : Bool :=
  m.value.isNone && m.bound == .below

def isLowerUnbounded : Bool :=
  m.value.isNone && m.bound == .above

def getValue : Result α :=
  match m.value with
  | some v => .ok v
  | none => .error (.illegalState "No value to get")

/-- Values are compared by `equalTo` of the type, not by `compareTo`. -/
def equals [BEq α] (m other : Marker α) : Bool :=
  m.bound == other.bound && m.value == other.value

theorem equals_iff [BEq α] [LawfulBEq α] {m n : Marker α} : m.equals n = true ↔ m = n := by
  rw [equals, Bool.and_eq_true, beq_iff_eq, beq_iff_eq, Marker.mk.injEq, and_comm]

/-- Every marker is one of the two ends or has a value. -/
theorem eq_end_or_mkValue : m = lowerUnbounded ∨ m = upperUnbounded ∨ ∃ v b, m = mkValue v b := by
  obtain ⟨value, bound, hvalid⟩ := m
  cases value with
  | some v => exact Or.inr (Or.inr ⟨v, bound, rfl⟩)
  | none =>
      cases bound with
      | below => exact Or.inr (Or.inl rfl)
      | exactly => exact absurd rfl (hvalid rfl)
      | above => exact Or.inl rfl

theorem isLowerUnbounded_iff {m : Marker α} : m.isLowerUnbounded = true ↔ m = lowerUnbounded := by
  rcases m.eq_end_or_mkValue with rfl | rfl | ⟨v, b, rfl⟩
  · simp [isLowerUnbounded, lowerUnbounded]
  · simp [isLowerUnbounded, lowerUnbounded, upperUnbounded]
  · simp [isLowerUnbounded, lowerUnbounded, mkValue]

theorem isUpperUnbounded_iff {m : Marker α} : m.isUpperUnbounded = true ↔ m = upperUnbounded := by
  rcases m.eq_end_or_mkValue with rfl | rfl | ⟨v, b, rfl⟩
  · simp [isUpperUnbounded, lowerUnbounded, upperUnbounded]
  · simp [isUpperUnbounded, upperUnbounded]
  · simp [isUpperUnbounded, upperUnbounded, mkValue]

variable {v w : α} {c : Bound}

@[simp] theorem mkValue_inj : mkValue v b = mkValue w c ↔ v = w ∧ b = c := by
  simp [mkValue]

def greaterAdjacent : Result (Marker α) :=
  match m.value, m.bound with
  | none, _ => .error (.illegalState "No marker adjacent to unbounded")
  | some v, .below => .ok (exactly v)
  | some v, .exactly => .ok (above v)
  | some _, .above =>
      .error (.illegalState "No greater marker adjacent to an ABOVE bound")

def lesserAdjacent : Result (Marker α) :=
  match m.value, m.bound with
  | none, _ => .error (.illegalState "No marker adjacent to unbounded")
  | some _, .below =>
      .error (.illegalState "No lesser marker adjacent to a BELOW bound")
  | some v, .exactly => .ok (below v)
  | some v, .above => .ok (exactly v)

/-- The position of a marker in the lexicographic order of values and bounds,
with the two ends added. -/
def key : WithBot (WithTop (α ×ₗ Bound)) :=
  match m.value with
  | some v => ((toLex (v, m.bound) : α ×ₗ Bound) : WithTop (α ×ₗ Bound))
  | none => if m.bound = .below then ((⊤ : WithTop (α ×ₗ Bound)) : WithBot _) else ⊥

@[simp] theorem key_upperUnbounded :
    key (upperUnbounded : Marker α) = ((⊤ : WithTop (α ×ₗ Bound)) : WithBot _) := rfl

@[simp] theorem key_mkValue (v : α) (b : Bound) :
    key (mkValue v b) = ((toLex (v, b) : α ×ₗ Bound) : WithTop (α ×ₗ Bound)) := rfl

theorem key_injective : Function.Injective (key : Marker α → _) := by
  intro m n h
  rcases m.eq_end_or_mkValue with rfl | rfl | ⟨v, b, rfl⟩ <;>
    rcases n.eq_end_or_mkValue with rfl | rfl | ⟨w, c, rfl⟩
  · rfl
  · exact absurd h WithBot.bot_ne_coe
  · exact absurd h WithBot.bot_ne_coe
  · exact absurd h WithBot.coe_ne_bot
  · rfl
  · exact absurd (WithBot.coe_injective h) WithTop.top_ne_coe
  · exact absurd h WithBot.coe_ne_bot
  · exact absurd (WithBot.coe_injective h) WithTop.coe_ne_top
  · simpa using h

variable [LinearOrder α]

/-- The two markers have the same value and neighbouring bounds. -/
def isAdjacent (m other : Marker α) : Bool :=
  match m.value, other.value with
  | some v, some w =>
      if compare v w ≠ .eq then false
      else
        (m.bound == .exactly && other.bound != .exactly) ||
          (m.bound != .exactly && other.bound == .exactly)
  | _, _ => false

def compareTo (m other : Marker α) : Ordering :=
  if m.isUpperUnbounded then
    if other.isUpperUnbounded then .eq else .gt
  else if m.isLowerUnbounded then
    if other.isLowerUnbounded then .eq else .lt
  else if other.isUpperUnbounded then .lt
  else if other.isLowerUnbounded then .gt
  else
    match m.value, other.value with
    | some v, some w =>
        match compare v w with
        | .eq =>
            if m.bound = other.bound then .eq
            else if m.bound = .below then .lt
            else if m.bound = .above then .gt
            else if other.bound = .below then .gt
            else .lt
        | order => order
    -- both values are present here: a marker without one is unbounded
    | _, _ => .eq

/-! ## The order of markers -/

instance : LinearOrder (Marker α) :=
  LinearOrder.lift' key key_injective

variable {m n : Marker α}

theorem lt_iff_key_lt : m < n ↔ m.key < n.key := Iff.rfl

theorem lowerUnbounded_le (m : Marker α) : lowerUnbounded ≤ m :=
  show key lowerUnbounded ≤ key m from bot_le

theorem le_upperUnbounded (m : Marker α) : m ≤ upperUnbounded := by
  change key m ≤ key upperUnbounded
  exact le_top

theorem lowerUnbounded_lt_mkValue (v : α) (b : Bound) : lowerUnbounded < mkValue v b := by
  exact WithBot.bot_lt_coe _

theorem mkValue_lt_upperUnbounded (v : α) (b : Bound) : mkValue v b < upperUnbounded := by
  exact WithBot.coe_lt_coe.mpr (WithTop.coe_lt_top _)

theorem lowerUnbounded_lt_upperUnbounded : (lowerUnbounded : Marker α) < upperUnbounded := by
  exact WithBot.bot_lt_coe _

theorem mkValue_lt_mkValue_iff : mkValue v b < mkValue w c ↔ v < w ∨ v = w ∧ b < c := by
  rw [lt_iff_key_lt, key_mkValue, key_mkValue, WithBot.coe_lt_coe,
    WithTop.coe_lt_coe, Prod.Lex.toLex_lt_toLex]

theorem mkValue_le_mkValue_iff : mkValue v b ≤ mkValue w c ↔ v < w ∨ v = w ∧ b ≤ c := by
  change key (mkValue v b) ≤ key (mkValue w c) ↔ _
  rw [key_mkValue, key_mkValue, WithBot.coe_le_coe, WithTop.coe_le_coe, Prod.Lex.toLex_le_toLex]

theorem mkValue_le_mkValue_iff_lt (h : c < b) : mkValue v b ≤ mkValue w c ↔ v < w := by
  rw [mkValue_le_mkValue_iff, or_iff_left fun hle => absurd hle.2 (not_le.mpr h)]

@[simp] theorem above_le_exactly_iff : above v ≤ exactly w ↔ v < w :=
  mkValue_le_mkValue_iff_lt (by decide)

@[simp] theorem above_le_below_iff : above v ≤ below w ↔ v < w :=
  mkValue_le_mkValue_iff_lt (by decide)

@[simp] theorem exactly_le_below_iff : exactly v ≤ below w ↔ v < w :=
  mkValue_le_mkValue_iff_lt (by decide)

@[simp] theorem exactly_le_exactly_iff : exactly v ≤ exactly w ↔ v ≤ w := by
  rw [exactly, exactly, mkValue_le_mkValue_iff, and_iff_left le_rfl, le_iff_lt_or_eq]

/-- The three outcomes of the source's comparison are the three cases of the
linear order. -/
theorem compareTo_compares (m n : Marker α) : (m.compareTo n).Compares m n := by
  rcases m.eq_end_or_mkValue with rfl | rfl | ⟨v, b, rfl⟩ <;>
    rcases n.eq_end_or_mkValue with rfl | rfl | ⟨w, c, rfl⟩
  · exact rfl
  · exact lowerUnbounded_lt_upperUnbounded
  · exact lowerUnbounded_lt_mkValue w c
  · exact lowerUnbounded_lt_upperUnbounded
  · exact rfl
  · exact mkValue_lt_upperUnbounded w c
  · exact lowerUnbounded_lt_mkValue v b
  · exact mkValue_lt_upperUnbounded v b
  · rcases lt_trichotomy v w with h | rfl | h
    · have hlt : mkValue v b < mkValue w c := mkValue_lt_mkValue_iff.mpr (Or.inl h)
      simpa [compareTo, mkValue, isUpperUnbounded, isLowerUnbounded,
        compare_lt_iff_lt.mpr h] using hlt
    · -- equal values: the bound decides
      cases b <;> cases c <;>
        simp [compareTo, mkValue, isUpperUnbounded, isLowerUnbounded, lt_iff_key_lt, key,
          Prod.Lex.toLex_lt_toLex, Bound.lt_iff_ordinal_lt, Bound.ordinal]
    · have hgt : mkValue w c < mkValue v b := mkValue_lt_mkValue_iff.mpr (Or.inl h)
      simpa [compareTo, mkValue, isUpperUnbounded, isLowerUnbounded,
        compare_gt_iff_gt.mpr h] using hgt

theorem compareTo_eq_lt_iff : m.compareTo n = .lt ↔ m < n :=
  (compareTo_compares m n).eq_lt

theorem compareTo_eq_gt_iff : m.compareTo n = .gt ↔ n < m :=
  (compareTo_compares m n).eq_gt

/-- `compareTo(..) <= 0` of the source. -/
@[simp] theorem compareTo_isLE_iff : (m.compareTo n).isLE = true ↔ m ≤ n := by
  rw [← Ordering.ne_gt_iff_isLE]
  exact (compareTo_compares m n).ne_gt

/-- `compareTo(..) >= 0` of the source. -/
@[simp] theorem compareTo_isGE_iff : (m.compareTo n).isGE = true ↔ n ≤ m := by
  rw [← Ordering.ne_lt_iff_isGE]
  exact (compareTo_compares m n).ne_lt

def min (marker1 marker2 : Marker α) : Marker α :=
  if (marker1.compareTo marker2).isLE then marker1 else marker2

def max (marker1 marker2 : Marker α) : Marker α :=
  if (marker1.compareTo marker2).isGE then marker1 else marker2

theorem min_eq (m n : Marker α) : Marker.min m n = m ⊓ n := by
  unfold Marker.min
  by_cases h : m ≤ n
  · rw [if_pos (compareTo_isLE_iff.mpr h), inf_eq_left.mpr h]
  · rw [if_neg (by simpa using h), inf_eq_right.mpr (le_of_not_ge h)]

theorem max_eq (m n : Marker α) : Marker.max m n = m ⊔ n := by
  unfold Marker.max
  by_cases h : n ≤ m
  · rw [if_pos (compareTo_isGE_iff.mpr h), sup_eq_left.mpr h]
  · rw [if_neg (by simpa using h), sup_eq_right.mpr (le_of_not_ge h)]

/-! ## Neighbouring markers -/

/-- Two markers of one value with consecutive bounds have nothing between
them. -/
theorem mkValue_covBy_mkValue
    (h : c.ordinal = b.ordinal + 1) : mkValue v b ⋖ mkValue v c := by
  constructor
  · exact mkValue_lt_mkValue_iff.mpr
      (Or.inr ⟨rfl, Bound.lt_iff_ordinal_lt.mpr (by omega)⟩)
  · intro m hbm hmc
    rcases m.eq_end_or_mkValue with rfl | rfl | ⟨w, d, rfl⟩
    · exact absurd hbm (not_lt.mpr (lowerUnbounded_le _))
    · exact absurd hmc (not_lt.mpr (le_upperUnbounded _))
    · rcases mkValue_lt_mkValue_iff.mp hbm with hvw | ⟨rfl, hbd⟩
      · rcases mkValue_lt_mkValue_iff.mp hmc with hwv | ⟨rfl, -⟩
        · exact absurd hvw (not_lt.mpr hwv.le)
        · exact absurd hvw (lt_irrefl _)
      · rcases mkValue_lt_mkValue_iff.mp hmc with hvv | ⟨-, hdc⟩
        · exact absurd hvv (lt_irrefl _)
        · rw [Bound.lt_iff_ordinal_lt] at hbd hdc
          omega

theorem below_covBy_exactly (v : α) : below v ⋖ exactly v :=
  mkValue_covBy_mkValue rfl

theorem exactly_covBy_above (v : α) : exactly v ⋖ above v :=
  mkValue_covBy_mkValue rfl

theorem isAdjacent_mkValue_iff :
    isAdjacent (mkValue v b) (mkValue w c) = true ↔ v = w ∧ (b = .exactly ↔ c ≠ .exactly) := by
  have hcmp : compare v w = .eq ↔ v = w := compare_eq_iff_eq
  simp only [isAdjacent, mkValue]
  by_cases h : v = w
  · cases b <;> cases c <;> simp [h]
  · simp [h]

/-- A bound below or at a present value has a greater neighbour. -/
theorem exists_greaterAdjacent (hbound : m.bound ≠ .above) (hvalue : m ≠ upperUnbounded) :
    ∃ n, m.greaterAdjacent = .ok n ∧ n.bound ≠ .below ∧ m ⋖ n ∧ m.isAdjacent n = true := by
  rcases m.eq_end_or_mkValue with rfl | rfl | ⟨v, b, rfl⟩
  · exact absurd rfl hbound
  · exact absurd rfl hvalue
  · cases b with
    | below =>
        exact ⟨exactly v, rfl, by simp [exactly, mkValue], below_covBy_exactly v,
          isAdjacent_mkValue_iff.mpr (by simp)⟩
    | exactly =>
        exact ⟨above v, rfl, by simp [above, mkValue], exactly_covBy_above v,
          isAdjacent_mkValue_iff.mpr (by simp)⟩
    | above => exact absurd rfl hbound

/-- A bound above or at a present value has a lesser neighbour. -/
theorem exists_lesserAdjacent (hbound : m.bound ≠ .below) (hvalue : m ≠ lowerUnbounded) :
    ∃ n, m.lesserAdjacent = .ok n ∧ n.bound ≠ .above ∧ n ⋖ m := by
  rcases m.eq_end_or_mkValue with rfl | rfl | ⟨v, b, rfl⟩
  · exact absurd rfl hvalue
  · exact absurd rfl hbound
  · cases b with
    | below => exact absurd rfl hbound
    | exactly => exact ⟨below v, rfl, by simp [below, mkValue], below_covBy_exactly v⟩
    | above => exact ⟨exactly v, rfl, by simp [exactly, mkValue], exactly_covBy_above v⟩

/-- Adjacent markers in increasing order have nothing between them. -/
theorem covBy_of_isAdjacent
    (h : m.isAdjacent n = true) (hlt : m < n) : m ⋖ n := by
  rcases m.eq_end_or_mkValue with rfl | rfl | ⟨v, b, rfl⟩
  · simp [isAdjacent, lowerUnbounded] at h
  · simp [isAdjacent, upperUnbounded] at h
  · rcases n.eq_end_or_mkValue with rfl | rfl | ⟨w, c, rfl⟩
    · simp [isAdjacent, lowerUnbounded] at h
    · simp [isAdjacent, upperUnbounded] at h
    · obtain ⟨rfl, hbound⟩ := isAdjacent_mkValue_iff.mp h
      have hbc : b.ordinal < c.ordinal := by
        rcases mkValue_lt_mkValue_iff.mp hlt with hvv | ⟨-, hbc⟩
        · exact absurd hvv (lt_irrefl _)
        · exact hbc
      apply mkValue_covBy_mkValue
      cases b <;> cases c <;> simp_all [Bound.ordinal]

end Marker
end Presto.Predicate
