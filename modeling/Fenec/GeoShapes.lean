/-
# Shapes and the keys they meet

A point's key is its two coordinates, each cut to 32 bits and their bits interleaved.  The cut keeps
order (`quant_mono`), so the points of a box have keys in the box's rectangle, and those of a circle
in the rectangle of one of the boxes drawn round it.

What the sphere itself gives is taken as laws of the functions the engine measures with (`Laws`): a
circle's padded boxes hold the points within it, the floor worked out for a cell is at most the
distance of every point of the cell, and no distance is below zero.  The rest is arithmetic on
`f64` that rounds, and is proved.
-/
import Fenec.Geo
import Fenec.GeoKeys
import Fenec.Lib.Monotone

namespace Fenec.Geo

open Lib

/-! ## 1. Coordinates cut to 32 bits -/

/-- `quant`: where a coordinate lies between `lo` and `lo + span`, in 32 bits. -/
def quant (x lo span : F64) : UInt32 :=
  let q := (((x.sub lo).div span).mul (Ieee.ofInt 4294967296)).floor
  if (Ieee.ofInt 4294967295 : F64).le q then 4294967295
  else if Ieee.posZero.lt q then q.toUInt32
  else 0

/-- `quant_lon`. -/
def quantLon (lon : F64) : UInt32 := quant lon (Ieee.ofInt (-180)) (Ieee.ofInt 360)

/-- `quant_lat`. -/
def quantLat (lat : F64) : UInt32 := quant lat (Ieee.ofInt (-90)) (Ieee.ofInt 180)

/-- `key`: the coordinates' bits, a longitude's above its latitude's. -/
def key (p : Point) : Nat := interleave (quantLon p.1).toNat (quantLat p.2).toNat

/-! ## 2. What the engine measures with -/

/-- The functions of an angle the haversine is worked out by, and the square root. -/
structure Trig where
  sin : F64 → F64
  cos : F64 → F64
  asin : F64 → F64
  sqrt : F64 → F64

/-- `f64::consts::PI`. -/
def pi : F64 := Ieee.ofWord 0x400921fb54442d18

/-- `f64::consts::FRAC_PI_2`. -/
def halfPi : F64 := Ieee.ofWord 0x3ff921fb54442d18

/-- `f64::to_degrees`: times `180 / PI`. -/
def toDegrees (x : F64) : F64 := x.mul (Ieee.ofWord 0x404ca5dc1a63c1f8)

/-- `0.5`. -/
def half : F64 := Ieee.ofWord 0x3fe0000000000000

/-- `PAD`: `1e-7`. -/
def pad : F64 := Ieee.ofWord 0x3e7ad7f29abcaf48

/-- `2.0 * EARTH_RADIUS_M`. -/
def diameter : F64 := (Ieee.ofInt 2 : F64).mul earthRadiusM

namespace Trig

variable (T : Trig)

/-- The angle of a haversine, in metres of the earth's surface. -/
def metres (h : F64) : F64 := diameter.mul (T.asin (T.sqrt (h.minNum (Ieee.ofInt 1))))

/-- `distance`: the haversine of two points. -/
def distance (a b : Point) : F64 :=
  let dl := b.1.sub a.1
  let dl := if (Ieee.ofInt 180 : F64).lt dl then dl.sub (Ieee.ofInt 360)
    else if dl.lt (Ieee.ofInt (-180)) then dl.add (Ieee.ofInt 360)
    else dl
  let p1 := toRadians a.2
  let p2 := toRadians b.2
  let u := T.sin ((p2.sub p1).mul half)
  let v := T.sin ((toRadians dl).mul half)
  T.metres ((u.mul u).add (((T.cos p1).mul (T.cos p2)).mul (v.mul v)))

end Trig

/-! ## 3. Rectangles -/

/-- The edges of a rectangle of degrees, its west not past its east. -/
structure Edges where
  w : F64
  e : F64
  s : F64
  n : F64

/-- Whether a point lies between the edges. -/
def Edges.holds (b : Edges) (p : Point) : Bool :=
  b.w.le p.1 && p.1.le b.e && b.s.le p.2 && p.2.le b.n

/-- `Rect::of`. -/
def Rect.of (b : Edges) : Rect := ⟨quantLon b.w, quantLon b.e, quantLat b.s, quantLat b.n⟩

/-- `Shape`: what a filter bounds a point by. -/
inductive Shape where
  | circle (c : Point) (r : F64)
  | box (b : GeoBox)

/-- The boxes a crossing of the antimeridian leaves of one. -/
def boxEdges (b : GeoBox) : List Edges :=
  if b.w.le b.e then [⟨b.w, b.e, b.s, b.n⟩]
  else [⟨b.w, Ieee.ofInt 180, b.s, b.n⟩, ⟨Ieee.ofInt (-180), b.e, b.s, b.n⟩]

namespace Trig

variable (T : Trig)

/-- `circle_rects`: the boxes round a circle, a little wider than the arithmetic says. -/
def circleEdges (c : Point) (r : F64) : List Edges :=
  let one := (Ieee.ofInt 1 : F64)
  let d := ((r.div earthRadiusM).mul (one.add pad)).add pad
  if pi.le d then [⟨Ieee.ofInt (-180), Ieee.ofInt 180, Ieee.ofInt (-90), Ieee.ofInt 90⟩]
  else
    let phi := toRadians c.2
    let lo := phi.sub d
    let hi := phi.add d
    let south := ((toDegrees lo).sub pad).maxNum (Ieee.ofInt (-90))
    let north := ((toDegrees hi).add pad).minNum (Ieee.ofInt 90)
    let s := (T.sin d).div (T.cos phi)
    -- a circle round a pole meets every longitude
    if lo.le halfPi.negate || halfPi.le hi || one.le s || s.isNaN then
      [⟨Ieee.ofInt (-180), Ieee.ofInt 180, south, north⟩]
    else
      let dl := ((toDegrees (T.asin s)).mul (one.add pad)).add pad
      let w := c.1.sub dl
      let e := c.1.add dl
      if w.lt (Ieee.ofInt (-180)) then
        [⟨w.add (Ieee.ofInt 360), Ieee.ofInt 180, south, north⟩,
          ⟨Ieee.ofInt (-180), e, south, north⟩]
      else if (Ieee.ofInt 180 : F64).lt e then
        [⟨w, Ieee.ofInt 180, south, north⟩,
          ⟨Ieee.ofInt (-180), e.sub (Ieee.ofInt 360), south, north⟩]
      else [⟨w, e, south, north⟩]

/-- The boxes of degrees a shape is searched by. -/
def edges : Shape → List Edges
  | .circle c r => T.circleEdges c r
  | .box b => boxEdges b

/-- `rects`: the rectangles of keys of a shape. -/
def rects (shape : Shape) : List Rect := (T.edges shape).map Rect.of

end Trig

/-! ## 4. Cells -/

/-- `cell_degrees`: the edges of a cell. -/
def cellDegrees (level cx cy : Nat) : Edges :=
  let size := (Ieee.ofInt 1 : F64).div (Ieee.ofInt (2 ^ level : Nat))
  let lon := fun x : F64 => ((x.mul size).mul (Ieee.ofInt 360)).sub (Ieee.ofInt 180)
  let lat := fun y : F64 => ((y.mul size).mul (Ieee.ofInt 180)).sub (Ieee.ofInt 90)
  { w := lon (Ieee.ofInt cx)
    e := lon ((Ieee.ofInt cx : F64).add (Ieee.ofInt 1))
    s := lat (Ieee.ofInt cy)
    n := lat ((Ieee.ofInt cy : F64).add (Ieee.ofInt 1)) }

namespace Trig

variable (T : Trig)

/-- `cell_floor`: what no point of a cell is nearer than. -/
def cellFloor (p : Point) (cosFrom : F64) (c : Edges) : F64 :=
  let dlat := if p.2.lt c.s then c.s.sub p.2 else if c.n.lt p.2 then p.2.sub c.n else .posZero
  let turn := fun x : F64 => if x.lt .posZero then x.add (Ieee.ofInt 360) else x
  let dlon := if c.w.le p.1 && p.1.le c.e then .posZero
    else ((turn (c.w.sub p.1)).minNum (turn (p.1.sub c.e))).minNum (Ieee.ofInt 180)
  let cosMin := ((T.cos (toRadians c.s)).minNum (T.cos (toRadians c.n))).maxNum .posZero
  let u := T.sin ((toRadians dlat).mul half)
  let v := T.sin ((toRadians dlon).mul half)
  let d := T.metres ((u.mul u).add ((cosFrom.mul cosMin).mul (v.mul v)))
  (d.sub (Ieee.ofInt 1)).sub (d.mul pad)

/-- The floor of the cell of a level that a point lies in. -/
def floorAt (frm p : Point) (level : Nat) : F64 :=
  T.cellFloor frm (T.cos (toRadians frm.2))
    (cellDegrees level (cellOf level (key p)).1 (cellOf level (key p)).2)

/-- **What the index takes from the sphere.** -/
structure Laws : Prop where
  circle_holds : ∀ c p r, valid c.1 c.2 = true → valid p.1 p.2 = true →
    Ieee.posZero.le r = true → r.isFinite = true → (T.distance p c).le r = true →
    ∃ b ∈ T.circleEdges c r, b.holds p = true
  floor_le : ∀ frm p level, valid frm.1 frm.2 = true → valid p.1 p.2 = true → level ≤ 32 →
    (T.floorAt frm p level).le (T.distance p frm) = true
  distance_pos : ∀ a b, valid a.1 a.2 = true → valid b.1 b.2 = true →
    (T.distance a b).neg = false

end Trig

/-! ## 5. Points of a shape have keys in its rectangles -/

theorem isFinite_int {i : Int} (h : i.natAbs ≤ 2 ^ 53) : (Ieee.ofInt i : F64).isFinite = true := by
  have hnat : (Ieee.ofInt (i.natAbs : Int) : F64).isFinite = true :=
    Ieee.isFinite_ofInt (by decide) (by decide) (by decide) h
  unfold Ieee.isFinite at hnat ⊢
  rwa [Ieee.mag_ofInt, Int.natAbs_natCast, ← Ieee.mag_ofInt i] at hnat

theorem positive_int {n : Nat} (h : n ≤ 2 ^ 53) (h0 : 0 < n) :
    Ieee.Positive (Ieee.ofInt (n : Int) : F64) where
  finite := isFinite_int (by rwa [Int.natAbs_natCast])
  sign := by
    rw [Ieee.neg_ofInt]
    exact decide_eq_false (by omega)
  mag := by
    intro hzero
    have hlt := Ieee.intMag_lt (e := 11) (m := 52) (by decide) (by decide) (by decide) h0 h
    rw [Ieee.mag_ofInt, Int.natAbs_natCast] at hzero
    omega

variable {x y lo : F64} {n : Nat} {p : Point}

/-- A number past zero and short of a whole one is finite and its sign is clear. -/
theorem finite_between {i : Int} (h0 : Ieee.posZero.lt x = true)
    (h : ¬ (Ieee.ofInt i : F64).le x = true) : x.isFinite = true ∧ x.neg = false := by
  obtain ⟨-, hx, hpos⟩ := Ieee.lt_iff.mp h0
  have hzero : (Ieee.posZero : F64).ord = 0 := by
    rw [Ieee.ord_of_pos Ieee.neg_posZero, Ieee.mag_posZero]
    rfl
  rw [hzero] at hpos
  have hsign : x.neg = false := by
    by_contra hneg
    rw [Ieee.ord_of_neg (Bool.eq_true_of_not_eq_false hneg)] at hpos
    omega
  refine ⟨?_, hsign⟩
  by_contra hnot
  -- an infinity is past every whole number
  have hmag := Ieee.mag_of_infinite hx (Bool.eq_false_of_not_eq_true hnot)
  have hmost : x.ord = Ieee.infMag 11 52 := by rw [Ieee.ord_of_pos hsign, hmag]
  refine h (Ieee.le_iff.mpr ⟨Ieee.isNaN_ofInt i, hx, ?_⟩)
  rw [hmost]
  exact (Ieee.ord_le_inf (Ieee.isNaN_ofInt i)).2

/-- **The cut keeps order.** -/
theorem quant_mono (hlo : lo.isFinite = true) (hn : n ≤ 2 ^ 53) (h0 : 0 < n)
    (h : x.le y = true) :
    (quant x lo (Ieee.ofInt (n : Int))).toNat ≤ (quant y lo (Ieee.ofInt (n : Int))).toNat := by
  have hword : Ieee.Positive (Ieee.ofInt ((4294967296 : Nat) : Int) : F64) :=
    positive_int (by decide) (by decide)
  have hq := Ieee.floor_mono
    (Ieee.mul_mono hword (Ieee.div_mono (positive_int hn h0) (Ieee.sub_mono hlo h)))
  unfold quant
  dsimp only
  generalize (((x.sub lo).div (Ieee.ofInt (n : Int))).mul (Ieee.ofInt 4294967296)).floor = q,
    (((y.sub lo).div (Ieee.ofInt (n : Int))).mul (Ieee.ofInt 4294967296)).floor = q' at hq
  by_cases hmost : (Ieee.ofInt 4294967295 : F64).le q' = true
  · rw [if_pos hmost]
    exact Nat.le_of_lt_succ (UInt32.toNat_lt _)
  · have hmost' : ¬ (Ieee.ofInt 4294967295 : F64).le q = true :=
      fun h => hmost (Ieee.le_trans h hq)
    rw [if_neg hmost, if_neg hmost']
    by_cases hpos : Ieee.posZero.lt q = true
    · have hpos' := Ieee.lt_of_lt_of_le hpos hq
      obtain ⟨hfin, hsign⟩ := finite_between hpos hmost'
      obtain ⟨hfin', hsign'⟩ := finite_between hpos' hmost
      rw [if_pos hpos, if_pos hpos']
      exact Ieee.toUInt32_mono hfin hfin' hsign hsign' (Ieee.le_iff.mp hq).2.2
    · rw [if_neg hpos]
      exact Nat.zero_le _

theorem quantLon_mono (h : x.le y = true) : (quantLon x).toNat ≤ (quantLon y).toNat :=
  quant_mono (n := 360) (isFinite_int (by decide)) (by decide) (by decide) h

theorem quantLat_mono (h : x.le y = true) : (quantLat x).toNat ≤ (quantLat y).toNat :=
  quant_mono (n := 180) (isFinite_int (by decide)) (by decide) (by decide) h

theorem key_lt (p : Point) : key p < 2 ^ 64 :=
  interleave_lt (UInt32.toNat_lt _) (UInt32.toNat_lt _)

theorem squash_key (p : Point) :
    squash (key p >>> 1) = (quantLon p.1).toNat ∧ squash (key p) = (quantLat p.2).toNat :=
  squash_interleave (UInt32.toNat_lt _) (UInt32.toNat_lt _)

/-- **A rectangle holds the keys of the points between its edges.** -/
theorem Rect.of_holds {b : Edges} (h : b.holds p = true) : (Rect.of b).holds (key p) = true := by
  unfold Edges.holds at h
  simp only [Bool.and_eq_true] at h
  obtain ⟨⟨⟨hw, he⟩, hs⟩, hn⟩ := h
  obtain ⟨hx, hy⟩ := squash_key p
  unfold Rect.holds Rect.of
  simp only [hx, hy, Bool.and_eq_true, decide_eq_true_eq]
  exact ⟨⟨⟨quantLon_mono hw, quantLon_mono he⟩, quantLat_mono hs⟩, quantLat_mono hn⟩

/-- A box's points lie between the edges of what it is searched by. -/
theorem boxEdges_holds {b : GeoBox} (hp : valid p.1 p.2 = true) (h : b.holds p = true) :
    ∃ e ∈ boxEdges b, e.holds p = true := by
  unfold valid at hp
  simp only [Bool.and_eq_true] at hp
  obtain ⟨⟨⟨hwest, heast⟩, -⟩, -⟩ := hp
  unfold GeoBox.holds at h
  unfold boxEdges
  split at h
  · next hwe =>
    simp only [Bool.and_eq_true] at h
    obtain ⟨⟨hs, hn⟩, hw, he⟩ := h
    rw [if_pos hwe]
    refine ⟨_, List.mem_singleton_self _, ?_⟩
    simp only [Edges.holds, hw, he, hs, hn, Bool.and_self]
  · next hwe =>
    simp only [Bool.and_eq_true, Bool.or_eq_true] at h
    obtain ⟨⟨hs, hn⟩, hw | he⟩ := h
    · rw [if_neg hwe]
      refine ⟨_, List.mem_cons_self, ?_⟩
      simp only [Edges.holds, hw, heast, hs, hn, Bool.and_self]
    · rw [if_neg hwe]
      refine ⟨_, List.mem_cons_of_mem _ (List.mem_singleton_self _), ?_⟩
      simp only [Edges.holds, hwest, he, hs, hn, Bool.and_self]

/-- Whether a point lies in a shape: in the box, or within the circle's radius. -/
def Trig.inside (T : Trig) (p : Point) : Shape → Bool
  | .circle c r => (T.distance p c).le r
  | .box b => b.holds p

/-- What `shape_of` makes a shape of: a centre of the earth, and a radius of metres. -/
def Shape.Sound : Shape → Prop
  | .circle c r => valid c.1 c.2 = true ∧ Ieee.posZero.le r = true ∧ r.isFinite = true
  | .box _ => True

/-- **A shape's points have keys in its rectangles.** -/
theorem Trig.rects_holds {T : Trig} (hT : T.Laws) {shape : Shape} (hshape : shape.Sound)
    (hp : valid p.1 p.2 = true) (h : T.inside p shape = true) :
    ∃ r ∈ T.rects shape, r.holds (key p) = true := by
  have hedges : ∃ e ∈ T.edges shape, e.holds p = true := by
    cases shape with
    | circle c r => exact hT.circle_holds c p r hshape.1 hp hshape.2.1 hshape.2.2 h
    | box b => exact boxEdges_holds hp h
  obtain ⟨e, he, hholds⟩ := hedges
  exact ⟨Rect.of e, List.mem_map_of_mem he, Rect.of_holds hholds⟩

end Fenec.Geo
