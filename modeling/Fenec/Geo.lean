/-
# Points, boxes and distances

A point is its longitude and latitude in degrees; as a value it is the list `[lon, lat]`, and a
`geo` field holds it as two floats, checked and with its zeros positive once written.

`past` is the cheap bound a scan rules a row out by: the arc between the two latitudes, less a
slack.  The haversine itself is a Taylor series over `f64`, and that the bound lies under it is
an error analysis of that series; it enters as the one law of `GeoMath`, the way the source
documents `past`.
-/
import Fenec.Value

namespace Fenec

open Lib

namespace Geo

/-- A longitude and a latitude. -/
abbrev Point := F64 × F64

/-- A longitude from -180 to 180 and a latitude from -90 to 90, neither NaN. -/
def valid (lon lat : F64) : Bool :=
  (Ieee.ofInt (-180) : F64).le lon && lon.le (Ieee.ofInt 180)
    && (Ieee.ofInt (-90) : F64).le lat && lat.le (Ieee.ofInt 90)

/-- A number a list gives a point or a box. -/
def number : Value → Option F64
  | .int i => some (Ieee.ofInt i.toInt)
  | .float f => some f
  | _ => none

/-- The two numbers a list of two is. -/
def pair : Value → Option Point
  | .list [a, b] => do pure ((← number a), (← number b))
  | _ => none

/-- **The point a value is**, `none` for a null, anything else refused. -/
def pointOf (v : Value) : Result (Option Point) :=
  match v with
  | .null => .ok none
  | v => match pair v with
    | some (lon, lat) =>
      if valid lon lat then .ok (some (lon.add .posZero, lat.add .posZero)) else .error (refused v)
    | none => .error (refused v)
where
  refused (v : Value) : Error :=
    ⟨.type, "a point is [lon, lat], a longitude from -180 to 180 and a latitude from -90 to " ++
      "90; found ", some v⟩

@[simp] theorem pointOf_null : pointOf .null = .ok none := rfl

/-- Folding a zero's sign leaves a point a point. -/
theorem valid_add_posZero {lon lat : F64} (h : valid lon lat = true) :
    valid (lon.add .posZero) (lat.add .posZero) = true := by
  have he : 1 ≤ 11 := by omega
  simp only [valid, Bool.and_eq_true, Ieee.le_iff, Ieee.ord_add_posZero he,
    Ieee.isNaN_add_posZero he] at h ⊢
  exact h

/-- A point read from a value is one of the earth. -/
theorem valid_of_pointOf {v : Value} {p : Point} (h : pointOf v = .ok (some p)) :
    valid p.1 p.2 = true := by
  unfold pointOf at h
  split at h
  · cases h
  · split at h
    · split at h
      · next hv =>
        cases h
        exact valid_add_posZero hv
      · cases h
    · cases h

/-- The point a `geo` field holds once read. -/
def pointIn : Value → Option Point
  | .list [.float lon, .float lat] => some (lon, lat)
  | _ => none

/-- A point as the value a `geo` field holds. -/
def geoValue (p : Point) : Value := .list [.float p.1, .float p.2]

@[simp] theorem pointIn_geoValue (p : Point) : pointIn (geoValue p) = some p := rfl

/-! ## 1. Boxes -/

/-- A box `[west, south, east, north]`; a west past its east crosses the antimeridian. -/
structure GeoBox where
  w : F64
  s : F64
  e : F64
  n : F64

/-- Whether the point lies in the box, its edges included. -/
def GeoBox.holds (b : GeoBox) (p : Point) : Bool :=
  b.s.le p.2 && p.2.le b.n
    && (if b.w.le b.e then b.w.le p.1 && p.1.le b.e else b.w.le p.1 || p.1.le b.e)

/-- The four numbers a list of four is. -/
def four : Value → Option GeoBox
  | .list [w, s, e, n] => do
    pure { w := (← number w), s := (← number s), e := (← number e), n := (← number n) }
  | _ => none

/-- The box a value is, `none` for a null. -/
def boxOf (v : Value) : Result (Option GeoBox) :=
  match v with
  | .null => .ok none
  | v => match four v with
    | some b =>
      if valid b.w b.s && valid b.e b.n && b.s.le b.n then .ok (some b)
      else .error (refused v)
    | none => .error (refused v)
where
  refused (v : Value) : Error :=
    ⟨.type, "a box is [west, south, east, north] in degrees, its south not above its north; " ++
      "found ", some v⟩

/-! ## 2. Distances -/

/-- The earth's radius in metres, `6372797.560856`. -/
def earthRadiusM : F64 := Ieee.ofWord 0x41584f6f63e51090

/-- `f64::to_radians`: times `PI / 180`. -/
def toRadians (x : F64) : F64 := x.mul (Ieee.ofWord 0x3f91df46a2529d39)

/-- **What the latitudes alone prove of a distance against `r`**: the meridian arc between
them, less a metre and 1e-9 of it, when that is past `r`. -/
def past (a b : Point) (r : F64) : Option F64 :=
  let arc := earthRadiusM.mul (toRadians (a.2.sub b.2).abs)
  let floor := (arc.sub (Ieee.ofInt 1)).sub (arc.mul (Ieee.ofWord 0x3e112e0be826d695))
  if r.lt floor then some floor else none

/-- A bound `past` gives is past `r` itself. -/
theorem past_eq_some {a b : Point} {r x : F64} (h : past a b r = some x) : r.lt x = true := by
  unfold past at h
  dsimp only at h
  split at h
  · next hlt => exact (Option.some.inj h) ▸ hlt
  · cases h

/-- The haversine the engine was built with, and the law `past` rests on: between two points of
the earth the distance is past `r` whenever the bound is, whichever point is named first. -/
structure GeoMath where
  distance : Point → Point → F64
  past_lt : ∀ a b r x, valid a.1 a.2 = true → valid b.1 b.2 = true → past a b r = some x →
    r.lt (distance a b) = true ∧ r.lt (distance b a) = true

/-- `distance(a, b)`: the metres between two points, null where either is. -/
def distanceFn (G : GeoMath) (args : List Value) : Result Value := do
  let a ← pointOf (args.getD 0 .null)
  let b ← pointOf (args.getD 1 .null)
  match a, b with
  | some a, some b => pure (.float (G.distance a b))
  | _, _ => pure .null

/-- `within(p, box)`: whether the point lies in the box, null where either is. -/
def withinFn (args : List Value) : Result Value := do
  let p ← pointOf (args.getD 0 .null)
  let b ← boxOf (args.getD 1 .null)
  match p, b with
  | some p, some b => pure (.bool (b.holds p))
  | _, _ => pure .null

end Geo

end Fenec
