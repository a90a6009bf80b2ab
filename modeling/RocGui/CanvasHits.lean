import Mathlib.Data.Int.Log
import Mathlib.Data.Rat.Floor
import RocGui.LocatorMatches

/-! Which primitive of a canvas a point hits, in the integers and floats of the code. -/
namespace CanvasHits

open Methods TextFormats GraphState GraphPatches GraphForests GraphMounting GraphRuns NodeForms FocusSearches
open FocusLandings GraphLedgers Locators LocatorMatches Transitions

section Arithmetic

variable {ε : Type}

/-- An integer that an operation leaves in the range of its type, or the panic of the operation. -/
def checked (least most : ℤ) (message : String) (n : ℤ) : Except (Failure ε) ℤ :=
  if least ≤ n ∧ n ≤ most then .ok n else .error (.panic message)

def InI32 (n : ℤ) : Prop := -2 ^ 31 ≤ n ∧ n ≤ 2 ^ 31 - 1

def addI32 (a b : ℤ) : Except (Failure ε) ℤ :=
  checked (-2 ^ 31) (2 ^ 31 - 1) "attempt to add with overflow" (a + b)

def subI32 (a b : ℤ) : Except (Failure ε) ℤ :=
  checked (-2 ^ 31) (2 ^ 31 - 1) "attempt to subtract with overflow" (a - b)

def addI64 (a b : ℤ) : Except (Failure ε) ℤ :=
  checked (-2 ^ 63) (2 ^ 63 - 1) "attempt to add with overflow" (a + b)

def addU32 (a b : ℤ) : Except (Failure ε) ℤ := checked 0 (2 ^ 32 - 1) "attempt to add with overflow" (a + b)

/-- `saturating_add` of `i32`. -/
def saturatingAdd (a b : ℤ) : ℤ := max (-2 ^ 31) (min (2 ^ 31 - 1) (a + b))

/-- The nearest integer, the even one of two. -/
def nearest (q : ℚ) : ℤ :=
  if q - ⌊q⌋ < 1 / 2 then ⌊q⌋
  else if 1 / 2 < q - ⌊q⌋ then ⌊q⌋ + 1
  else if 2 ∣ ⌊q⌋ then ⌊q⌋ else ⌊q⌋ + 1

/-- The `f64` nearest to a number. No value here is so large or so small that the exponent of an `f64`
is too short for it. -/
def f64 (q : ℚ) : ℚ :=
  let unit : ℚ := 2 ^ (Int.log 2 |q| - 52)
  nearest (q / unit) * unit

end Arithmetic

section Model

inductive CanvasPrimitiveKind where
  | ellipse | line | rectangle | text
  deriving DecidableEq, Repr

structure CanvasPrimitive where
  kind : CanvasPrimitiveKind
  key : UInt64
  label : String
  x : Int32
  y : Int32
  width : UInt32
  height : UInt32
  x2 : Int32
  y2 : Int32
  strokeWidth : UInt32
  text : String
  textSize : UInt32
  deriving DecidableEq

/-- What the decoder of a canvas asserts of its primitives. -/
structure Admitted (primitives : List CanvasPrimitive) : Prop where
  single : ∀ item ∈ primitives, '\n' ∉ item.text.toList
  keyed : ∀ item ∈ primitives, item.key ≠ 0
  unique : (primitives.map (·.key)).Nodup

section Tests

-- what an operation makes of its exact result
variable (round : ℚ → ℚ)

/-- Whether an offset from the corner of its box is in an ellipse. -/
def inEllipse (offsetX offsetY : ℤ) (width height : UInt32) : Bool :=
  let rx := round (width.toNat / 2)
  let ry := round (height.toNat / 2)
  let dx := round (round (offsetX - rx) / rx)
  let dy := round (round (offsetY - ry) / ry)
  round (round (dx * dx) + round (dy * dy)) ≤ 1

def nearLine (x y ax ay dx dy : ℤ) (strokeWidth : UInt32) : Bool :=
  let lengthSq := round (round (dx * dx) + round (dy * dy))
  let projection := if lengthSq = 0 then 0
    else max 0 (min 1 (round (round (round (round (x - ax) * dx) + round (round (y - ay) * dy)) / lengthSq)))
  let nearestX := round (ax + round (projection * dx))
  let nearestY := round (ay + round (projection * dy))
  let distanceX := round (x - nearestX)
  let distanceY := round (y - nearestY)
  let tolerance := round ((max strokeWidth 6).toNat / 2)
  round (round (distanceX * distanceX) + round (distanceY * distanceY)) ≤ round (tolerance * tolerance)

end Tests

variable {ε : Type}

def CanvasPrimitive.lineHeight (item : CanvasPrimitive) : Except (Failure ε) ℤ :=
  addU32 item.textSize.toNat (item.textSize.toNat / 4)

/-- Text labels shapes; it is never itself a pointer target. -/
def hits (item : CanvasPrimitive) (x y : ℤ) : Except (Failure ε) Bool :=
  match item.kind with
  | .text => .ok false
  | .rectangle =>
    if item.x.toInt ≤ x ∧ item.y.toInt ≤ y then do
      let right ← addI64 item.x.toInt item.width.toNat
      if x ≤ right then do
        let bottom ← addI64 item.y.toInt item.height.toNat
        return y ≤ bottom
      else return false
    else .ok false
  | .ellipse =>
    if 0 < f64 (item.width.toNat / 2) ∧ 0 < f64 (item.height.toNat / 2) then do
      let offsetX ← subI32 x item.x.toInt
      let offsetY ← subI32 y item.y.toInt
      return inEllipse f64 offsetX offsetY item.width item.height
    else .ok false
  | .line => do
    let dx ← subI32 item.x2.toInt item.x.toInt
    let dy ← subI32 item.y2.toInt item.y.toInt
    return nearLine f64 x y item.x.toInt item.y.toInt dx dy item.strokeWidth

def targetFrom (x y : ℤ) : List CanvasPrimitive → Except (Failure ε) (Option UInt64)
  | [] => .ok none
  | item :: below => do if ← hits item x y then return some item.key else targetFrom x y below

/-- The primitives are painted in order, so the last is asked first. -/
def canvasTarget (primitives : List CanvasPrimitive) (x y : ℤ) : Except (Failure ε) (Option UInt64) :=
  targetFrom x y primitives.reverse

end Model

section Press

variable {K : Type} [DecidableEq K] (g : MountedGraph K) (painted : ℕ → Painted)
  (canvases : ℕ → List CanvasPrimitive)

/-- What the nodes show when these are the primitives of the canvases. -/
def shownOn (id : ℕ) : Painted :=
  { painted id with primitives := (canvases id).map fun item => item.label.toList }

def isNamed (locator : Locator) (item : CanvasPrimitive) : Bool :=
  match locator.target with
  | .named .canvasItemName name => item.label.toList = name
  | .named .canvasItemPrefix beginning => startsWith item.label.toList beginning
  | _ => false

def namedOn (locator : Locator) (node : Node K) : List (ℕ × CanvasPrimitive) :=
  match node.kind with
  | .canvas .. => ((canvases node.id).filter (isNamed locator)).map fun item => (node.id, item)
  | _ => []

def canvasItem (locator : Locator) : Reading K (Option (ℕ × CanvasPrimitive)) := do
  let candidates ← locatorMatches g (shownOn painted canvases) locator
  let nodes ← nodesPreorder g
  match (nodes.filter fun node => node.id ∈ candidates).flatMap (namedOn canvases locator) with
  | [found] => return some found
  | _ => return none

def pressedAt {ε : Type} (item : CanvasPrimitive) : Except (Failure ε) (ℤ × ℤ) :=
  match item.kind with
  | .line => do
    let x ← addI32 item.x.toInt item.x2.toInt
    let y ← addI32 item.y.toInt item.y2.toInt
    return (x.tdiv 2, y.tdiv 2)
  | _ => .ok (saturatingAdd item.x.toInt (item.width.toNat / 2 : ℕ),
      saturatingAdd item.y.toInt (item.height.toNat / 2 : ℕ))

def unreached (label : String) (x y : ℤ) : String :=
  "canvas primitive `" ++ label ++ "` is not what a press at its centre (" ++ toString x ++ ", " ++
    toString y ++ ") reaches"

def canvasPressPoint (locator : Locator) : Reading K (Except String (ℤ × ℤ)) := do
  match ← canvasItem g painted canvases locator with
  | none => return .error "the locator must match exactly one canvas primitive"
  | some (canvas, item) => do
    let (x, y) ← pressedAt item
    match kindAt g canvas with
    | some (.canvas ..) => do
      let target ← canvasTarget (canvases canvas) x y
      return if target = some item.key then .ok (x, y) else .error (unreached item.label x y)
    | _ => return .error "the primitive's canvas is not mounted"

end Press

section Specification

def Contains (round : ℚ → ℚ) (item : CanvasPrimitive) (x y : ℤ) : Prop :=
  match item.kind with
  | .text => False
  | .rectangle => item.x.toInt ≤ x ∧ x ≤ item.x.toInt + item.width.toNat ∧
      item.y.toInt ≤ y ∧ y ≤ item.y.toInt + item.height.toNat
  | .ellipse => 0 < item.width ∧ 0 < item.height ∧
      inEllipse round (x - item.x.toInt) (y - item.y.toInt) item.width item.height = true
  | .line => nearLine round x y item.x.toInt item.y.toInt (item.x2.toInt - item.x.toInt)
      (item.y2.toInt - item.y.toInt) item.strokeWidth = true

/-- The differences of coordinates that the test of a primitive forms fit. -/
def Fits (item : CanvasPrimitive) (x y : ℤ) : Prop :=
  match item.kind with
  | .text | .rectangle => True
  | .ellipse => 0 < item.width → 0 < item.height → InI32 (x - item.x.toInt) ∧ InI32 (y - item.y.toInt)
  | .line => InI32 (item.x2.toInt - item.x.toInt) ∧ InI32 (item.y2.toInt - item.y.toInt)

/-- Rounding leaves the point on its side of the edge of a primitive. -/
def Settled (round : ℚ → ℚ) (item : CanvasPrimitive) (x y : ℤ) : Prop :=
  Contains f64 item x y ↔ Contains round item x y

/-- The primitive contains the point, and none above it does. -/
def Topmost (round : ℚ → ℚ) (primitives : List CanvasPrimitive) (x y : ℤ) (item : CanvasPrimitive) : Prop :=
  ∃ below above, primitives = below ++ item :: above ∧ Contains round item x y ∧
    ∀ other ∈ above, ¬Contains round other x y

def Clear (round : ℚ → ℚ) (primitives : List CanvasPrimitive) (x y : ℤ) : Prop :=
  ∀ below item above, primitives = below ++ item :: above → (∀ other ∈ above, ¬Contains round other x y) →
    Fits item x y ∧ Settled round item x y

def Answered (round : ℚ → ℚ) (primitives : List CanvasPrimitive) (x y : ℤ) (answer : Option UInt64) : Prop :=
  (∃ item, Topmost round primitives x y item ∧ answer = some item.key) ∨
    answer = none ∧ ∀ item ∈ primitives, ¬Contains round item x y

def TargetHolds (round : ℚ → ℚ) (primitives : List CanvasPrimitive) (x y : ℤ) : Prop :=
  ∃ answer, canvasTarget primitives x y = (.ok answer : Except (Failure Empty) _) ∧
    Answered round primitives x y answer

end Specification

section Ranges

variable {ε : Type} {n a b : ℤ} {q : ℚ} {item : CanvasPrimitive} {x y : ℤ}

theorem checked_ok {least most : ℤ} {message : String} (hn : least ≤ n ∧ n ≤ most) :
    checked least most message n = (.ok n : Except (Failure ε) ℤ) := if_pos hn

theorem checked_error {least most : ℤ} {message : String} (hn : ¬(least ≤ n ∧ n ≤ most)) :
    checked least most message n = (.error (.panic message) : Except (Failure ε) ℤ) := if_neg hn

theorem nearest_pos (hq : 1 ≤ q) : 0 < nearest q := by
  have hfloor : 1 ≤ ⌊q⌋ := Int.le_floor.mpr (by exact_mod_cast hq)
  unfold nearest
  split_ifs <;> omega

theorem f64_pos (hq : 0 < q) : 0 < f64 q := by
  unfold f64
  have hlog : (2 : ℚ) ^ Int.log 2 |q| ≤ |q| := by
    have := Int.zpow_log_le_self (b := 2) one_lt_two (abs_pos.mpr hq.ne')
    exact_mod_cast this
  rw [abs_of_pos hq] at hlog ⊢
  have hunit : (0 : ℚ) < 2 ^ (Int.log 2 q - 52) := zpow_pos two_pos _
  have hsmall : (2 : ℚ) ^ (Int.log 2 q - 52) ≤ q :=
    (zpow_le_zpow_right₀ one_le_two (by omega)).trans hlog
  have hone : 1 ≤ q / 2 ^ (Int.log 2 q - 52) := (one_le_div hunit).mpr hsmall
  exact mul_pos (Int.cast_pos.mpr (nearest_pos hone)) hunit

theorem f64_zero : f64 0 = 0 := by decide +kernel

theorem radius_pos (extent : UInt32) : 0 < f64 (extent.toNat / 2) ↔ 0 < extent := by
  rw [UInt32.lt_iff_toNat_lt]
  constructor
  · intro hradius
    rcases Nat.eq_zero_or_pos extent.toNat with hzero | hpos
    · rw [hzero, Nat.cast_zero, zero_div, f64_zero] at hradius
      exact absurd hradius (lt_irrefl 0)
    · exact hpos
  · intro hextent
    have hcast : (0 : ℚ) < extent.toNat := by exact_mod_cast hextent
    exact f64_pos (half_pos hcast)

theorem corner_fits (corner : Int32) (extent : UInt32) :
    addI64 corner.toInt extent.toNat = (.ok (corner.toInt + extent.toNat) : Except (Failure ε) ℤ) := by
  have hleast := corner.le_toInt
  have hmost := corner.toInt_lt
  have hextent := extent.toNat_lt
  refine checked_ok ⟨?_, ?_⟩ <;> omega

theorem hits_fits (hfits : Fits item x y) :
    ∃ b, hits item x y = (.ok b : Except (Failure ε) Bool) ∧ (b = true ↔ Contains f64 item x y) := by
  unfold Fits at hfits
  unfold hits Contains
  cases hkind : item.kind with
  | text => exact ⟨false, rfl, by simp⟩
  | rectangle =>
    dsimp only
    by_cases hcorner : item.x.toInt ≤ x ∧ item.y.toInt ≤ y
    · rw [if_pos hcorner, corner_fits, corner_fits]
      dsimp only [bind, Except.bind]
      by_cases hright : x ≤ item.x.toInt + item.width.toNat
      · rw [if_pos hright]
        refine ⟨_, rfl, ?_⟩
        simp [hcorner.1, hcorner.2, hright]
      · rw [if_neg hright]
        refine ⟨_, rfl, ?_⟩
        simp [hright]
    · rw [if_neg hcorner]
      refine ⟨_, rfl, ?_⟩
      simp only [Bool.false_eq_true, false_iff]
      exact fun hin => hcorner ⟨hin.1, hin.2.2.1⟩
  | ellipse =>
    rw [hkind] at hfits
    simp only [radius_pos]
    by_cases hextent : 0 < item.width ∧ 0 < item.height
    · rw [if_pos hextent]
      obtain ⟨hx, hy⟩ := hfits hextent.1 hextent.2
      rw [subI32, subI32, checked_ok hx, checked_ok hy]
      exact ⟨_, rfl, by simp [hextent.1, hextent.2]⟩
    · rw [if_neg hextent]
      refine ⟨_, rfl, ?_⟩
      simp only [Bool.false_eq_true, false_iff]
      exact fun hin => hextent ⟨hin.1, hin.2.1⟩
  | line =>
    rw [hkind] at hfits
    dsimp only
    rw [subI32, subI32, checked_ok hfits.1, checked_ok hfits.2]
    exact ⟨_, rfl, Iff.rfl⟩

theorem pair_overflow {α : Type} {c d : ℤ} (then' : ℤ → ℤ → Except (Failure ε) α)
    (hnot : ¬(InI32 (a - b) ∧ InI32 (c - d))) :
    ∃ e, (do let p ← subI32 a b; let q ← subI32 c d; then' p q) = .error e := by
  by_cases hfirst : InI32 (a - b)
  · rw [subI32, checked_ok hfirst, subI32, checked_error fun hsecond => hnot ⟨hfirst, hsecond⟩]
    exact ⟨_, rfl⟩
  · rw [subI32, checked_error hfirst]
    exact ⟨_, rfl⟩

theorem hits_overflow (hfits : ¬Fits item x y) :
    ∃ e, hits item x y = (.error e : Except (Failure ε) Bool) := by
  unfold Fits at hfits
  unfold hits
  cases hkind : item.kind with
  | text => simp [hkind] at hfits
  | rectangle => simp [hkind] at hfits
  | ellipse =>
    rw [hkind] at hfits
    simp only [radius_pos]
    by_cases hextent : 0 < item.width ∧ 0 < item.height
    · rw [if_pos hextent]
      exact pair_overflow _ fun hin => hfits fun _ _ => hin
    · exact absurd (fun hw hh => absurd ⟨hw, hh⟩ hextent) hfits
  | line =>
    rw [hkind] at hfits
    exact pair_overflow _ hfits

end Ranges

section Targets

variable {ε : Type} {round : ℚ → ℚ} {items primitives : List CanvasPrimitive} {x y : ℤ}
  {answer : Option UInt64}

def First (round : ℚ → ℚ) (x y : ℤ) : List CanvasPrimitive → Option UInt64 → Prop
  | [], answer => answer = none
  | top :: below, answer => Contains round top x y ∧ answer = some top.key ∨
      ¬Contains round top x y ∧ First round x y below answer

def ClearFirst (round : ℚ → ℚ) (x y : ℤ) : List CanvasPrimitive → Prop
  | [] => True
  | top :: below =>
    Fits top x y ∧ Settled round top x y ∧ (¬Contains round top x y → ClearFirst round x y below)

theorem first_key (h : First round x y items answer) : ∀ key ∈ answer, key ∈ items.map (·.key) := by
  induction items with
  | nil =>
    rintro key hkey
    rw [show answer = none from h] at hkey
    cases hkey
  | cons top below ih =>
    intro key hkey
    rcases h with ⟨-, rfl⟩ | ⟨-, h⟩
    · obtain rfl := Option.some.inj hkey
      exact List.mem_cons_self
    · exact List.mem_cons_of_mem _ (ih h key hkey)

theorem target_first (hrun : targetFrom x y items = (.ok answer : Except (Failure ε) _)) :
    First f64 x y items answer := by
  induction items with
  | nil => exact (Except.ok.inj hrun).symm
  | cons top below ih =>
    rw [targetFrom] at hrun
    by_cases hfits : Fits top x y
    · obtain ⟨b, hb, hiff⟩ := hits_fits (ε := ε) hfits
      rw [hb] at hrun
      cases b with
      | true => exact .inl ⟨hiff.mp rfl, (Except.ok.inj hrun).symm⟩
      | false => exact .inr ⟨fun hin => Bool.false_ne_true (hiff.mpr hin), ih hrun⟩
    · obtain ⟨e, he⟩ := hits_overflow (ε := ε) hfits
      rw [he] at hrun
      cases hrun

theorem target_clear (nodup : (items.map (·.key)).Nodup) :
    (∃ answer, targetFrom x y items = (.ok answer : Except (Failure ε) _) ∧ First round x y items answer) ↔
      ClearFirst round x y items := by
  induction items with
  | nil => exact iff_of_true ⟨none, rfl, rfl⟩ trivial
  | cons top below ih =>
    rw [List.map_cons, List.nodup_cons] at nodup
    rw [targetFrom, ClearFirst]
    by_cases hfits : Fits top x y
    · obtain ⟨b, hb, hiff⟩ := hits_fits (ε := ε) hfits
      rw [hb, and_iff_right hfits, Settled, ← hiff, ← ih nodup.2]
      dsimp only [bind, Except.bind]
      cases b with
      | true =>
        rw [if_pos rfl]
        constructor
        · rintro ⟨answer, hrun, hfirst⟩
          obtain rfl := Except.ok.inj hrun
          rcases hfirst with ⟨hin, -⟩ | ⟨-, hfirst⟩
          · exact ⟨iff_of_true rfl hin, fun hout => absurd hin hout⟩
          · exact absurd (first_key hfirst top.key rfl) nodup.1
        · rintro ⟨hin, -⟩
          exact ⟨some top.key, rfl, .inl ⟨hin.mp rfl, rfl⟩⟩
      | false =>
        constructor
        · rintro ⟨answer, hrun, hfirst⟩
          rcases hfirst with ⟨-, rfl⟩ | ⟨hout, hfirst⟩
          · exact absurd (first_key (target_first hrun) top.key rfl) nodup.1
          · exact ⟨iff_of_false Bool.false_ne_true hout, fun _ => ⟨answer, hrun, hfirst⟩⟩
        · rintro ⟨hin, hbelow⟩
          have hout : ¬Contains round top x y := fun h => Bool.false_ne_true (hin.mpr h)
          obtain ⟨answer, hrun, hfirst⟩ := hbelow hout
          exact ⟨answer, hrun, .inr ⟨hout, hfirst⟩⟩
    · obtain ⟨e, he⟩ := hits_overflow (ε := ε) hfits
      rw [he]
      exact iff_of_false (by rintro ⟨answer, hrun, -⟩; cases hrun) fun h => hfits h.1

theorem split_reverse {below above : List CanvasPrimitive} {item : CanvasPrimitive} :
    primitives = below ++ item :: above ↔ primitives.reverse = above.reverse ++ item :: below.reverse := by
  rw [← List.reverse_inj]
  simp

theorem first_answered : First round x y primitives.reverse answer ↔ Answered round primitives x y answer := by
  have down (items : List CanvasPrimitive) : First round x y items answer ↔
      (∃ above item below, items = above ++ item :: below ∧ Contains round item x y ∧
        (∀ other ∈ above, ¬Contains round other x y) ∧ answer = some item.key) ∨
      answer = none ∧ ∀ item ∈ items, ¬Contains round item x y := by
    induction items with
    | nil => simp [First]
    | cons top below ih =>
      rw [First, ih]
      constructor
      · rintro (⟨hin, rfl⟩ | ⟨hout, ⟨above, item, rest, rfl, hin, habove, rfl⟩ | ⟨rfl, hnone⟩⟩)
        · exact .inl ⟨[], top, below, rfl, hin, nofun, rfl⟩
        · exact .inl ⟨top :: above, item, rest, rfl, hin, List.forall_mem_cons.mpr ⟨hout, habove⟩, rfl⟩
        · exact .inr ⟨rfl, List.forall_mem_cons.mpr ⟨hout, hnone⟩⟩
      · rintro (⟨above, item, rest, heq, hin, habove, rfl⟩ | ⟨rfl, hnone⟩)
        · cases above with
          | nil =>
            obtain ⟨rfl, rfl⟩ := List.cons.inj heq
            exact .inl ⟨hin, rfl⟩
          | cons other above =>
            obtain ⟨rfl, rfl⟩ := List.cons.inj heq
            obtain ⟨hout, habove⟩ := List.forall_mem_cons.mp habove
            exact .inr ⟨hout, .inl ⟨above, item, rest, rfl, hin, habove, rfl⟩⟩
        · obtain ⟨hout, hnone⟩ := List.forall_mem_cons.mp hnone
          exact .inr ⟨hout, .inr ⟨rfl, hnone⟩⟩
  rw [down, Answered]
  refine or_congr ?_ (and_congr_right fun _ => by simp)
  constructor
  · rintro ⟨above, item, below, heq, hin, habove, hanswer⟩
    refine ⟨item, ⟨below.reverse, above.reverse, split_reverse.mpr (by simpa using heq), hin, ?_⟩, hanswer⟩
    intro other hother
    exact habove other (List.mem_reverse.mp hother)
  · rintro ⟨item, ⟨below, above, heq, hin, habove⟩, hanswer⟩
    refine ⟨above.reverse, item, below.reverse, split_reverse.mp heq, hin, ?_, hanswer⟩
    intro other hother
    exact habove other (List.mem_reverse.mp hother)

theorem clear_first : ClearFirst round x y primitives.reverse ↔ Clear round primitives x y := by
  have down (items : List CanvasPrimitive) : ClearFirst round x y items ↔
      ∀ above item below, items = above ++ item :: below → (∀ other ∈ above, ¬Contains round other x y) →
        Fits item x y ∧ Settled round item x y := by
    induction items with
    | nil => simp [ClearFirst]
    | cons top below ih =>
      rw [ClearFirst, ih]
      constructor
      · rintro ⟨hfits, hsettled, hbelow⟩ above item rest heq habove
        cases above with
        | nil =>
          obtain ⟨rfl, rfl⟩ := List.cons.inj heq
          exact ⟨hfits, hsettled⟩
        | cons other above =>
          obtain ⟨rfl, rfl⟩ := List.cons.inj heq
          obtain ⟨hout, habove⟩ := List.forall_mem_cons.mp habove
          exact hbelow hout above item rest rfl habove
      · intro hall
        obtain ⟨hfits, hsettled⟩ := hall [] top below rfl nofun
        refine ⟨hfits, hsettled, fun hout above item rest heq habove => ?_⟩
        exact hall (top :: above) item rest (congrArg _ heq) (List.forall_mem_cons.mpr ⟨hout, habove⟩)
  rw [down]
  constructor
  · intro hall below item above heq habove
    refine hall above.reverse item below.reverse (split_reverse.mp heq) fun other hother => ?_
    exact habove other (List.mem_reverse.mp hother)
  · intro hall above item below heq habove
    refine hall below.reverse item above.reverse (split_reverse.mpr (by simpa using heq)) fun other hother => ?_
    exact habove other (List.mem_reverse.mp hother)

/-- The search is right at a point exactly when every primitive it may ask fits and is settled. -/
theorem target_holds (admitted : Admitted primitives) :
    (∃ answer, canvasTarget primitives x y = (.ok answer : Except (Failure ε) _) ∧
      Answered round primitives x y answer) ↔ Clear round primitives x y := by
  have nodup : (primitives.reverse.map (·.key)).Nodup := by
    rw [List.map_reverse, List.nodup_reverse]
    exact admitted.unique
  rw [← clear_first, ← target_clear (ε := ε) nodup]
  simp only [first_answered, canvasTarget]

end Targets

section Presses

variable {K : Type} [DecidableEq K] {g : MountedGraph K} {painted : ℕ → Painted}
  {canvases : ℕ → List CanvasPrimitive} {locator : Locator} {canvas : ℕ} {item : CanvasPrimitive}

def centre (item : CanvasPrimitive) : ℤ × ℤ :=
  match item.kind with
  | .line => ((item.x.toInt + item.x2.toInt).tdiv 2, (item.y.toInt + item.y2.toInt).tdiv 2)
  | _ => (saturatingAdd item.x.toInt (item.width.toNat / 2 : ℕ),
      saturatingAdd item.y.toInt (item.height.toNat / 2 : ℕ))

def CentreFits (item : CanvasPrimitive) : Prop :=
  item.kind = .line → InI32 (item.x.toInt + item.x2.toInt) ∧ InI32 (item.y.toInt + item.y2.toInt)

/-- What a press answers with is a point where the search finds the primitive pressed. -/
def PressHolds (g : MountedGraph K) (painted : ℕ → Painted) (canvases : ℕ → List CanvasPrimitive)
    (locator : Locator) : Prop :=
  ∃ answer, canvasPressPoint g painted canvases locator = .ok answer ∧ ∀ p, answer = .ok p →
    ∃ canvas item, canvasItem g painted canvases locator = .ok (some (canvas, item)) ∧
      item ∈ canvases canvas ∧ canvasTarget (canvases canvas) p.1 p.2 = (.ok (some item.key) : Reading K _) ∧
      ∀ other ∈ canvases canvas, other.key = item.key → other = item

/-- The primitive that a locator names is pressed, and asked for, without overflow. -/
def PressClear (g : MountedGraph K) (painted : ℕ → Painted) (canvases : ℕ → List CanvasPrimitive)
    (locator : Locator) : Prop :=
  ∀ canvas item, canvasItem g painted canvases locator = .ok (some (canvas, item)) →
    CentreFits item ∧ Clear f64 (canvases canvas) (centre item).1 (centre item).2

theorem pressed_fits {ε : Type} (hfits : CentreFits item) :
    pressedAt item = (.ok (centre item) : Except (Failure ε) _) := by
  unfold pressedAt centre
  cases hkind : item.kind with
  | line =>
    obtain ⟨hx, hy⟩ := hfits hkind
    dsimp only
    rw [addI32, addI32, checked_ok hx, checked_ok hy]
    rfl
  | _ => rfl

theorem pressed_overflow {ε : Type} (hfits : ¬CentreFits item) :
    ∃ e, pressedAt item = (.error e : Except (Failure ε) (ℤ × ℤ)) := by
  obtain ⟨hkind, hnot⟩ := Classical.not_imp.mp hfits
  unfold pressedAt
  rw [hkind]
  dsimp only
  by_cases hfirst : InI32 (item.x.toInt + item.x2.toInt)
  · rw [addI32, checked_ok hfirst, addI32, checked_error fun hsecond => hnot ⟨hfirst, hsecond⟩]
    exact ⟨_, rfl⟩
  · rw [addI32, checked_error hfirst]
    exact ⟨_, rfl⟩

theorem item_found (h : Shape g) (formed : Formed g) :
    ∃ found, canvasItem g painted canvases locator = .ok found ∧ ∀ canvas item, found = some (canvas, item) →
      item ∈ canvases canvas ∧ ∃ label size, kindAt g canvas = some (.canvas label size) := by
  obtain ⟨candidates, hcandidates⟩ := @matches_answer _ _ g (shownOn painted canvases) h formed locator
  obtain ⟨nodes, hnodes, hlisted⟩ := preorder_lists h formed
  have named : ∀ canvas item, (canvas, item) ∈
      (nodes.filter fun node => node.id ∈ candidates).flatMap (namedOn canvases locator) →
      item ∈ canvases canvas ∧ ∃ label size, kindAt g canvas = some (.canvas label size) := by
    intro canvas item hmem
    obtain ⟨node, hnode, hmem⟩ := List.mem_flatMap.mp hmem
    have hkept := (hlisted node).mp (List.mem_of_mem_filter hnode)
    unfold namedOn at hmem
    split at hmem
    · rename_i label size hkind
      obtain ⟨item', hitem, heq⟩ := List.mem_map.mp hmem
      obtain ⟨rfl, rfl⟩ := Prod.mk.inj heq
      exact ⟨List.mem_of_mem_filter hitem, label, size, by rw [kindAt, hkept, Option.map_some, hkind]⟩
    · cases hmem
  unfold canvasItem
  rw [hcandidates, hnodes]
  dsimp only [bind, Except.bind]
  split
  · rename_i found hfound
    refine ⟨some found, rfl, fun canvas item heq => named canvas item ?_⟩
    rw [hfound, Option.some.inj heq]
    exact List.mem_cons_self
  · exact ⟨none, rfl, fun canvas item heq => by cases heq⟩

theorem press_holds (h : Shape g) (formed : Formed g) (admitted : ∀ id, Admitted (canvases id)) :
    PressHolds g painted canvases locator ↔ PressClear g painted canvases locator := by
  obtain ⟨found, hfound, hnamed⟩ := @item_found _ _ g painted canvases locator h formed
  unfold PressHolds PressClear canvasPressPoint
  rw [hfound]
  dsimp only [bind, Except.bind]
  cases found with
  | none => exact iff_of_true ⟨_, rfl, nofun⟩ nofun
  | some pair =>
    obtain ⟨canvas, item⟩ := pair
    obtain ⟨hitem, label, size, hkind⟩ := hnamed canvas item rfl
    have hone : (∀ canvas' item', (.ok (some (canvas, item)) : Reading K _) = .ok (some (canvas', item')) →
        CentreFits item' ∧ Clear f64 (canvases canvas') (centre item').1 (centre item').2) ↔
        CentreFits item ∧ Clear f64 (canvases canvas) (centre item).1 (centre item).2 := by
      constructor
      · exact fun hall => hall canvas item rfl
      · rintro hclear canvas' item' heq
        obtain ⟨rfl, rfl⟩ := Prod.mk.inj (Option.some.inj (Except.ok.inj heq))
        exact hclear
    rw [hone]
    dsimp only
    by_cases hfits : CentreFits item
    · rw [pressed_fits hfits, and_iff_right hfits, ← target_holds (ε := GraphError K) (admitted canvas)]
      dsimp only
      rw [hkind]
      dsimp only
      cases hrun : (canvasTarget (canvases canvas) (centre item).1 (centre item).2 : Reading K _) with
      | error e =>
        refine iff_of_false ?_ ?_
        · rintro ⟨answer, hanswer, -⟩
          cases hanswer
        · rintro ⟨answer, hanswer, -⟩
          cases hanswer
      | ok target =>
        refine iff_of_true ⟨_, rfl, fun p hp => ?_⟩ ⟨target, rfl, first_answered.mp (target_first hrun)⟩
        split at hp
        · rename_i htarget
          obtain rfl := Except.ok.inj hp
          refine ⟨canvas, item, rfl, hitem, htarget ▸ hrun, fun other hother heq => ?_⟩
          exact List.inj_on_of_nodup_map (admitted canvas).unique hother hitem heq
        · cases hp
    · obtain ⟨e, he⟩ := pressed_overflow (ε := GraphError K) hfits
      rw [he]
      refine iff_of_false ?_ fun hclear => hfits hclear.1
      rintro ⟨answer, hanswer, -⟩
      cases hanswer

theorem height_fits {ε : Type} :
    (∃ n, (item.lineHeight : Except (Failure ε) ℤ) = .ok n) ↔
      item.textSize.toNat + item.textSize.toNat / 4 < 2 ^ 32 := by
  unfold CanvasPrimitive.lineHeight addU32
  by_cases hfits : item.textSize.toNat + item.textSize.toNat / 4 < 2 ^ 32
  · exact iff_of_true ⟨_, checked_ok (by omega)⟩ hfits
  · rw [checked_error (by omega)]
    refine iff_of_false ?_ hfits
    rintro ⟨n, hn⟩
    cases hn

/-- However containment is rounded: at each point the search is right exactly when what it may ask fits
and is settled, and a press is exactly when the primitive it names fits and what it may ask does. -/
theorem hit_testing_iff {g : MountedGraph K} (hreach : Reachable (accepting K) g) (i : Interaction)
    (painted : ℕ → Painted) {canvases : ℕ → List CanvasPrimitive}
    (admitted : ∀ canvas, Admitted (canvases canvas)) (locator : Locator) (round : ℚ → ℚ) :
    (∀ canvas, ∀ x y : Int32, TargetHolds round (canvases canvas) x.toInt y.toInt ↔
      Clear round (canvases canvas) x.toInt y.toInt) ∧
    (PressHolds { g with interaction := i } painted canvases locator ↔
      PressClear { g with interaction := i } painted canvases locator) ∧
    ∀ item : CanvasPrimitive, (∃ n, (item.lineHeight : Except (Failure Empty) ℤ) = .ok n) ↔
      item.textSize.toNat + item.textSize.toNat / 4 < 2 ^ 32 := by
  have shape := shape_reachable hreach
  have form := formed_reachable hreach
  have h : Shape { g with interaction := i } := ⟨shape.orders, shape.linked, shape.weighed, shape.issued⟩
  have formed : Formed { g with interaction := i } := ⟨form.named, form.counted, form.ordered⟩
  refine ⟨fun canvas x y => ?_, press_holds h formed admitted, fun item => height_fits⟩
  exact target_holds (admitted canvas)

/-- An ellipse at the left end of the coordinates. -/
def leftmost : CanvasPrimitive := ⟨.ellipse, 1, "leftmost", -2147483648, 0, 10, 10, 0, 0, 0, "", 0⟩

theorem leftmost_admitted : Admitted [leftmost] := ⟨by decide, by decide, by decide⟩

def canvasMounted : Patch ℕ := .mount 1 [⟨1, .canvas "map" false, []⟩]

theorem canvas_reached : Reachable (accepting ℕ) (afterPatch .empty canvasMounted) :=
  reachable_step (reachable_initial (accepting ℕ))
    (accepted_step (g := .empty) canvasMounted (by decide +kernel))

theorem leftmost_tested :
    (∀ canvas : ℕ, ∀ x y : Int32, TargetHolds f64 ((fun _ => [leftmost]) canvas) x.toInt y.toInt ↔
      Clear f64 ((fun _ => [leftmost]) canvas) x.toInt y.toInt) ∧
    (PressHolds { afterPatch (.empty : MountedGraph ℕ) canvasMounted with interaction := .empty }
        (fun _ => ⟨[], none, false, []⟩) (fun _ => [leftmost]) (.named .canvasItemName "leftmost".toList) ↔
      PressClear { afterPatch (.empty : MountedGraph ℕ) canvasMounted with interaction := .empty }
        (fun _ => ⟨[], none, false, []⟩) (fun _ => [leftmost]) (.named .canvasItemName "leftmost".toList)) ∧
    ∀ item : CanvasPrimitive, (∃ n, (item.lineHeight : Except (Failure Empty) ℤ) = .ok n) ↔
      item.textSize.toNat + item.textSize.toNat / 4 < 2 ^ 32 :=
  hit_testing_iff canvas_reached .empty _ (fun _ => leftmost_admitted) _ f64

/-- Subtracting the left end from the origin does not fit. -/
theorem leftmost_overflows :
    ¬∀ (primitives : List CanvasPrimitive) (x y : Int32), Admitted primitives →
      TargetHolds f64 primitives x.toInt y.toInt := by
  intro claim
  obtain ⟨answer, hrun, -⟩ := claim [leftmost] 0 0 leftmost_admitted
  have hpanic : canvasTarget [leftmost] 0 0 =
      (.error (.panic "attempt to subtract with overflow") : Except (Failure Empty) _) := by decide +kernel
  cases hpanic.symm.trans hrun

/-- A circle with a point on its edge that the floats of the code leave out. -/
def rounded : CanvasPrimitive := ⟨.ellipse, 1, "rounded", 0, 0, 104, 104, 0, 0, 0, "", 0⟩

theorem edge_unsettled : ¬Settled id rounded 4 72 := by
  intro hsettled
  have hin : Contains id rounded 4 72 := ⟨by decide, by decide, by decide +kernel⟩
  have hout : ¬inEllipse f64 4 72 104 104 = true := by decide +kernel
  exact hout (hsettled.mpr hin).2.2

end Presses

end CanvasHits
