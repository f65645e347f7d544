
namespace Castle

/-- `castle::status`; `ok` is the only success value. -/
inductive Status where
  | ok | full | empty | outOfRange | notFound | notConfigured | invalidConfig | invalidArgument
  | invalidCallback | invalidSubscription | alreadyExists | systemCallError | dataLoss | timeOut
  | unknownError
  deriving DecidableEq, Repr, Inhabited

end Castle
