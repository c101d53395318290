import MailComposer.Mutation

/-!
All that can go wrong while a template is made, loaded or edited, in one place.
-/
namespace MailComposer

inductive TemplateError where
  | unknownType (name : String)
  | json (cause : Json.DecodeError)
deriving DecidableEq, Repr

def TemplateError.message : TemplateError → String
  | .unknownType name => "Unknown component type: " ++ name
  | .json cause => "Invalid template JSON: " ++ cause.message

def MutationError.ofTemplate : TemplateError → MutationError
  | .unknownType name => .unknownType name
  | .json cause => .invalidTemplate cause

inductive EditError where
  | template (cause : TemplateError)
  | mutation (cause : MutationError)
deriving DecidableEq, Repr

def EditError.message : EditError → String
  | .template cause => "Model error: " ++ cause.message
  | .mutation cause => "Mutation error: " ++ cause.message

end MailComposer
