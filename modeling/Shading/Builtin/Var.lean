import Shading.Stage
import Shading.Ty

/-! The variables that a stage reads and writes without declaring them. -/
namespace Shading.Builtin

inductive Var where
  | position
  | pointSize
  | vertexId
  | instanceId
  | fragCoord
  | frontFacing
  | pointCoord
  | fragColor
  | fragDepth
  | globalInvocationId
  | localInvocationId
  | workGroupId
  | numWorkGroups
  | localInvocationIndex
  deriving DecidableEq, Repr

namespace Var

def table : List Var :=
  [.position, .pointSize, .vertexId, .instanceId, .fragCoord, .frontFacing, .pointCoord, .fragColor,
    .fragDepth, .globalInvocationId, .localInvocationId, .workGroupId, .numWorkGroups,
    .localInvocationIndex]

def name : Var → String
  | .position => "gl_Position"
  | .pointSize => "gl_PointSize"
  | .vertexId => "gl_VertexID"
  | .instanceId => "gl_InstanceID"
  | .fragCoord => "gl_FragCoord"
  | .frontFacing => "gl_FrontFacing"
  | .pointCoord => "gl_PointCoord"
  | .fragColor => "gl_FragColor"
  | .fragDepth => "gl_FragDepth"
  | .globalInvocationId => "gl_GlobalInvocationID"
  | .localInvocationId => "gl_LocalInvocationID"
  | .workGroupId => "gl_WorkGroupID"
  | .numWorkGroups => "gl_NumWorkGroups"
  | .localInvocationIndex => "gl_LocalInvocationIndex"

def stage : Var → Stage
  | .position | .pointSize | .vertexId | .instanceId => .vertex
  | .fragCoord | .frontFacing | .pointCoord | .fragColor | .fragDepth => .fragment
  | .globalInvocationId | .localInvocationId | .workGroupId | .numWorkGroups
  | .localInvocationIndex => .compute

def isOutput : Var → Bool
  | .position | .pointSize | .fragColor | .fragDepth => true
  | _ => false

def ty : Var → Ty
  | .position | .fragCoord | .fragColor => .vec 4
  | .pointSize | .fragDepth => .float
  | .vertexId | .instanceId => .int
  | .frontFacing => .bool
  | .pointCoord => .vec 2
  | .globalInvocationId | .localInvocationId | .workGroupId | .numWorkGroups => .vector .uint 3
  | .localInvocationIndex => .uint

def code (v : Var) : Nat := table.idxOf v

def ofCode? (n : Nat) : Option Var := table[n]?

@[simp] theorem ofCode?_code (v : Var) : ofCode? v.code = some v := by cases v <;> rfl

def lookup? (name : String) (stage : Stage) : Option Var :=
  table.find? fun v => v.name == name && v.stage == stage

end Var

end Shading.Builtin
