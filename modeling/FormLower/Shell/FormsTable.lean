import FormLower.Lowering.Forms
import FormLower.Shell.Grid

/-! # The table of forms

What a user is shown of the forms: every head that is a form, whether it is structural or special,
and whether its arguments are taken as they stand or lowered. -/

namespace FormLower
namespace Forms

/-- The special forms that no structural form hides. -/
def visibleSpecial (forms : Forms) : List String :=
  forms.special.names.filter fun name => !forms.structural.contains name

/-- The rows of the table, structural forms first. -/
def tableRows (forms : Forms) : List (List String) :=
  forms.structural.names.map (fun name => [name, "structural", "raw"]) ++
    forms.visibleSpecial.map (fun name => [name, "special", "lowered"])

def table (forms : Forms) : Grid := ⟨["Form", "Kind", "Arguments"], forms.tableRows⟩

end Forms
end FormLower
