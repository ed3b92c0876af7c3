import OpGraph.Rules.Basic

/-!
# Standard rules

The tables for the operators of a common tensor library, and the functions of it that accept an
argument for their result.
-/

namespace OpGraph.Rules

/-- A set of functions, given by their paths. -/
def functionSet (paths : List String) : FunctionSet :=
  .ofList (paths.map FunctionPath.mk)

/-- Functions by function, given by their paths. -/
def functionMap (entries : List (String × String)) : FunctionMap FunctionPath :=
  .ofList (entries.map fun (old, new) => (FunctionPath.mk old, FunctionPath.mk new))

/-- Methods and the functions that they stand for. -/
def standardMethods : List (String × String) := [
  ("add_", "_operator.iadd"),
  ("all", "torch.all"),
  ("chunk", "torch.chunk"),
  ("clamp", "torch.clamp"),
  ("clone", "torch.clone"),
  ("exp", "torch.exp"),
  ("flatten", "torch.flatten"),
  ("flip", "torch.flip"),
  ("log_softmax", "torch.nn.functional.log_softmax"),
  ("max", "torch.max"),
  ("mean", "torch.mean"),
  ("mul_", "_operator.imul"),
  ("narrow", "torch.narrow"),
  ("nonzero", "torch.nonzero"),
  ("numel", "torch.numel"),
  ("pow", "torch.pow"),
  ("rsqrt", "torch.rsqrt"),
  ("sigmoid", "torch.sigmoid"),
  ("softmax", "torch.nn.functional.softmax"),
  ("sort", "torch.sort"),
  ("squeeze", "torch.squeeze"),
  ("std", "torch.std"),
  ("sum", "torch.sum"),
  ("transpose", "torch.transpose"),
  ("tril", "torch.tril"),
  ("unsqueeze", "torch.unsqueeze")]

/-- Operations that return a view of their first argument. -/
def standardViewOps : List String := [
  "getitem", "as_strided", "detach", "diagonal", "expand", "expand_as", "movedim", "narrow",
  "permute", "select", "squeeze", "transpose", "t", "T", "real", "imag", "view_as_real",
  "view_as_imag", "unflatten", "unfold", "unsqueeze", "view", "view_as", "unbind", "split",
  "split_with_sizes", "swapaxes", "swapdims", "chunk", "indices", "values"]

/-- Functions that work in place under a flag. -/
def standardFlagFunctions : List String := [
  "torch.nn.functional.mish", "torch.nn.functional.silu", "torch.nn.functional.hardsigmoid",
  "torch.nn.functional.rrelu", "torch.nn.functional.leaky_relu", "torch.nn.functional.celu",
  "torch.nn.functional.selu", "torch.nn.functional.elu", "torch.nn.functional.relu6",
  "torch.nn.functional.hardswish", "torch.nn.functional.hardtanh", "torch.nn.functional.relu",
  "torch.nn.functional.threshold"]

/-- Compound assignments and the pure functions behind them. -/
def standardDestructiveOperators : List (String × String) := [
  ("_operator.iadd", "torch.add"),
  ("_operator.isub", "torch.sub"),
  ("_operator.imul", "torch.mul"),
  ("_operator.itruediv", "torch.div"),
  ("_operator.ifloordiv", "torch.floor_divide"),
  ("_operator.ipow", "torch.pow"),
  ("_operator.imatmul", "torch.matmul"),
  ("_operator.iand", "torch.bitwise_and"),
  ("_operator.ior", "torch.bitwise_or"),
  ("_operator.ixor", "torch.bitwise_xor")]

/-- Operators and the tensor functions behind them. -/
def standardOperatorFunctions : List (String × String) := [
  ("_operator.add", "torch.add"),
  ("_operator.sub", "torch.sub"),
  ("_operator.mul", "torch.mul"),
  ("_operator.truediv", "torch.div"),
  ("_operator.floordiv", "torch.floor_divide"),
  ("_operator.mod", "torch.remainder"),
  ("_operator.pow", "torch.pow"),
  ("_operator.matmul", "torch.matmul"),
  ("_operator.neg", "torch.neg"),
  ("_operator.abs", "torch.abs"),
  ("_operator.invert", "torch.bitwise_not"),
  ("_operator.and_", "torch.bitwise_and"),
  ("_operator.or_", "torch.bitwise_or"),
  ("_operator.xor", "torch.bitwise_xor"),
  ("_operator.eq", "torch.eq"),
  ("_operator.ne", "torch.ne"),
  ("_operator.lt", "torch.lt"),
  ("_operator.le", "torch.le"),
  ("_operator.gt", "torch.gt"),
  ("_operator.ge", "torch.ge")]

/-- The standard tables. -/
def standard : Rules where
  methodFunctions :=
    .ofList (standardMethods.map fun (method, path) => (method, FunctionPath.mk path))
  aliases := functionMap [
    ("torch.nn.functional.sigmoid", "torch.sigmoid"),
    ("torch.nn.functional.tanh", "torch.tanh")]
  opaqueClasses := .ofList ["ConvTranspose2d", "EmbeddingBag", "LSTM"]
  viewOps := .ofList standardViewOps
  possibleViewOps := .ofList ["contiguous", "reshape"]
  purePackages := .ofList ["builtins", "math", "_operator"]
  flagFunctions := functionSet standardFlagFunctions
  inplaceVariants := functionMap [
    ("torch.relu_", "torch.relu"),
    ("torch.sigmoid_", "torch.sigmoid"),
    ("torch.tanh_", "torch.tanh")]
  destructiveOperators := functionMap standardDestructiveOperators
  operatorFunctions := functionMap standardOperatorFunctions
  elementwiseFunctions := functionSet ["torch.add", "torch.sub", "torch.mul", "torch.div"]

end OpGraph.Rules

namespace OpGraph.Signatures

/-- The functions of a set accept an argument for their result, and no others. -/
def ofList (paths : List String) : Signatures :=
  (Rules.functionSet paths).contains

/-- The functions whose last path segment is listed accept an argument for their result. -/
def ofNames (names : List String) : Signatures := fun function =>
  names.contains function.name

/-- Pointwise functions that accept an argument for their result. -/
def standard : Signatures := ofList [
  "torch.abs", "torch.add", "torch.ceil", "torch.clamp", "torch.cos", "torch.div", "torch.erf",
  "torch.exp", "torch.floor", "torch.log", "torch.mul", "torch.neg", "torch.pow",
  "torch.reciprocal", "torch.round", "torch.rsqrt", "torch.sigmoid", "torch.sin", "torch.sqrt",
  "torch.sub", "torch.tanh", "torch.tril"]

end OpGraph.Signatures
