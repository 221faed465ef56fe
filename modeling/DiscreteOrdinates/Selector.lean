import DiscreteOrdinates.Text.Letter

/-!
# Selectors

The finite choices that a user makes by name: the family of a quadrature set,
the layout of its ordinates over the levels, the geometry they are swept
through and the interpolation between flux and moments.
-/

namespace DiscreteOrdinates

/-- Family of an angular discretisation. -/
inductive Family where
  | gaussLegendre
  | levelSymmetric
  | squareChebyshevLegendre
  | doubleGauss
  | general
  deriving DecidableEq, Repr

/-- How ordinates are laid out over the levels of a set. Triangles lose
ordinates from level to level towards the pole, squares keep their number. -/
inductive Layout where
  | interval
  | triangle
  | square
  deriving DecidableEq, Repr

/-- Geometry of the mesh that ordinates are swept through. -/
inductive Geometry where
  | cartesian
  | axisymmetric
  | spherical
  deriving DecidableEq, Repr

/-- How the moment operators are formed: a fixed map of moments, a search for
independent ones, or a weighted pseudo-inverse over complete shells. -/
inductive Interpolation where
  | sn
  | galerkin
  | svd
  deriving DecidableEq, Repr

/-- A text that is no name of the kind of selector it stands for. -/
inductive SelectorError where
  | unknownFamily (text : String)
  | unknownLayout (text : String)
  | unknownGeometry (text : String)
  | unknownInterpolation (text : String)
  deriving DecidableEq, Repr

/-- The wording of a selector error, which quotes the text as it was given. -/
def SelectorError.message : SelectorError → String
  | .unknownFamily text => "unrecognised quadrature family \"" ++ text ++ "\""
  | .unknownLayout text => "unrecognised quadrature class \"" ++ text ++ "\""
  | .unknownGeometry text => "unrecognised geometry \"" ++ text ++ "\""
  | .unknownInterpolation text => "unrecognised interpolation model \"" ++ text ++ "\""

/-! ## Families -/

namespace Family

/-- Every family. -/
def all : List Family :=
  [gaussLegendre, levelSymmetric, squareChebyshevLegendre, doubleGauss, general]

/-- The name under which a family is written. -/
def name : Family → String
  | gaussLegendre => "gauss legendre"
  | levelSymmetric => "level symmetric"
  | squareChebyshevLegendre => "square CL"
  | doubleGauss => "double gauss"
  | general => "general"

/-- The dimension of a set for which none is requested. -/
def defaultDimension : Family → Nat
  | gaussLegendre | doubleGauss => 1
  | levelSymmetric | squareChebyshevLegendre => 2
  | general => 3

/-- Reads a family. Case and the amount of space between words do not matter. -/
def read (text : String) : Except SelectorError Family :=
  match String.ofList (Text.lower (Text.squeeze text.toList)) with
  | "gauss legendre" | "gauss-legendre" | "gaussleg" => .ok gaussLegendre
  | "level symmetric" | "level-symmetric" | "levelsym" => .ok levelSymmetric
  | "square cl" | "square chebyshev legendre" => .ok squareChebyshevLegendre
  | "double gauss" | "double-gauss" => .ok doubleGauss
  | "general" => .ok general
  | _ => .error (.unknownFamily text)

end Family

/-! ## Layouts -/

namespace Layout

/-- Every layout. -/
def all : List Layout :=
  [interval, triangle, square]

/-- The name under which a layout is written. -/
def name : Layout → String
  | interval => "interval"
  | triangle => "triangle"
  | square => "square"

/-- Reads a layout. Case and surrounding blanks do not matter. -/
def read (text : String) : Except SelectorError Layout :=
  match String.ofList (Text.lower (Text.trim text.toList)) with
  | "interval" => .ok interval
  | "triangle" | "triangular" => .ok triangle
  | "square" => .ok square
  | _ => .error (.unknownLayout text)

end Layout

/-! ## Geometries -/

namespace Geometry

/-- The name under which a geometry is written. -/
def name : Geometry → String
  | cartesian => "cartesian"
  | axisymmetric => "axisymmetric"
  | spherical => "spherical"

/-- Whether sweeping through the geometry turns a direction into its
neighbours. -/
def isCurvilinear (g : Geometry) : Bool :=
  g ≠ cartesian

/-- Reads a geometry. Case and surrounding blanks do not matter. -/
def read (text : String) : Except SelectorError Geometry :=
  match String.ofList (Text.lower (Text.trim text.toList)) with
  | "cartesian" | "xyz" | "slab" => .ok cartesian
  | "axisymmetric" | "rz" | "cylindrical" => .ok axisymmetric
  | "spherical" | "sphere" => .ok spherical
  | _ => .error (.unknownGeometry text)

end Geometry

/-! ## Interpolations -/

namespace Interpolation

/-- The name under which an interpolation is written. -/
def name : Interpolation → String
  | sn => "SN"
  | galerkin => "GALERKIN"
  | svd => "SVD"

/-- Whether there are as many moments as angles. -/
def isSquare (i : Interpolation) : Bool :=
  i ≠ svd

/-- Reads an interpolation. Case and surrounding blanks do not matter. -/
def read (text : String) : Except SelectorError Interpolation :=
  match String.ofList (Text.upper (Text.trim text.toList)) with
  | "SN" => .ok sn
  | "GALERKIN" | "GQ" => .ok galerkin
  | "SVD" => .ok svd
  | _ => .error (.unknownInterpolation text)

end Interpolation

end DiscreteOrdinates
