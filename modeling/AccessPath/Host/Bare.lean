import AccessPath.Eval.Introspector

/-!
# A bare introspector

An introspector that knows nothing of its values: a member answers with its own name, and there are
no methods and no extensions. Zero values and empty sets are the built-in ones.
-/

namespace AccessPath.Host

def bare {σ : Type} : Introspector σ where
  readMember _ member := Action.ofExcept (.ok (.string member.name))
  invoke _ method _ := Action.ofExcept (.error (.methodNotFound "bare" method.name))
  invokeExtension method _ := Action.ofExcept (.error (.extensionNotFound method.name))
  invokeExtensionWith method _ := Script.fail (.extensionNotFound method.name)

end AccessPath.Host
