import MuslBsd.Argp.Types

/-! What `argp-help.c` reads of the argps it is called with. -/
namespace MuslBsd.Help
open MuslBsd.Argp

mutual

/-- `struct argp`, with NULL for no options, no parser and no `args_doc`, without a help filter and
a domain. -/
inductive HelpArgp (π : Type)
  | node (options : Option OptionArray) (parser : Option π) (argsDoc : Option CStr)
    (children : HelpChildren π)

/-- An array of `struct argp_child` up to its end. -/
inductive HelpChildren (π : Type)
  | nil
  | cons (argp : HelpArgp π) (header : Option CStr) (group : ℤ) (children : HelpChildren π)

end

def newline : CChar := ⟨10, by decide⟩

end MuslBsd.Help
