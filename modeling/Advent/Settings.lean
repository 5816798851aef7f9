/-
The numbers and names that the puzzles take as given.
-/
namespace Advent

/-- The puzzle settings, with the values of the calendar as defaults. -/
structure Settings where
  imageWidth : Int := 25
  imageHeight : Int := 6
  gravityNoun : Int := 12
  gravityVerb : Int := 2
  gravityTarget : Int := 19690720
  airConditioner : Int := 1
  thermalRadiator : Int := 5
  boostTest : Int := 1
  boostSensor : Int := 2
  orbitOrigin : String := "YOU"
  orbitDestination : String := "SAN"
  deriving DecidableEq, Repr, Inhabited

end Advent
