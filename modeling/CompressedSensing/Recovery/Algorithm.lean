import CompressedSensing.Error
import CompressedSensing.Text.Blank
/-!
# The recovery algorithms by name
-/

namespace CompressedSensing

/-- The greedy recovery algorithms. -/
inductive Algorithm where
  /-- Iterative hard thresholding. -/
  | iht
  /-- Hard thresholding pursuit. -/
  | htp
  /-- Compressive sampling matching pursuit. -/
  | cosamp
  /-- Subspace pursuit. -/
  | subspacePursuit
deriving DecidableEq, Repr

namespace Algorithm

/-- The short name. -/
def tag : Algorithm → String
  | iht => "iht"
  | htp => "htp"
  | cosamp => "cosamp"
  | subspacePursuit => "sp"

/-- The name an algorithm goes by in its answers. -/
def name : Algorithm → String
  | subspacePursuit => "subspace-pursuit"
  | a => a.tag

/-- The name in descriptions. -/
def title : Algorithm → String
  | iht => "Iht"
  | htp => "Htp"
  | cosamp => "CoSaMP"
  | subspacePursuit => "SubspacePursuit"

/-- All algorithms. -/
def all : List Algorithm := [iht, htp, cosamp, subspacePursuit]

/-- The algorithm of a name, in any mixture of ASCII cases and with white space around it. -/
def parse? (text : String) : Except Error Algorithm :=
  let key := String.ofList ((Text.trim text.toList).map Char.toLower)
  if key = "iht" then .ok iht
  else if key = "htp" then .ok htp
  else if key = "cosamp" then .ok cosamp
  else if key = "sp" ∨ key = "subspace-pursuit" ∨ key = "subspace_pursuit" then
    .ok subspacePursuit
  else .error (.unknownAlgorithm key)

end Algorithm
end CompressedSensing
