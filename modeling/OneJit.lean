import OneJit.Op
import OneJit.Imm
import OneJit.Code
import OneJit.NodeEncoding
import OneJit.Graph
import OneJit.Lib.Colouring
import OneJit.Allocator
import OneJit.RegisterColouring
import OneJit.Ir
import OneJit.FlowGraph
import OneJit.Lib.Segments
import OneJit.FlowGraphEdges
import OneJit.Arith
import OneJit.Eval
import OneJit.Semantics
import OneJit.Refines
import OneJit.DeepEqual
import OneJit.Optimizer
import OneJit.OptimizerUnary
import OneJit.OptimizerBinary
import OneJit.OptimizerSound
import OneJit.Lib.MapM
import OneJit.OptimizerFuel
import OneJit.Effects
import OneJit.Assign
import OneJit.AssignSound
import OneJit.OptimizerCall
import OneJit.CodeParser
import OneJit.CompileExpr
import OneJit.CompileStmt
import OneJit.CompileSteps
import OneJit.CompileShape
import OneJit.LabelStacks
import OneJit.LabelPlacement
import OneJit.CompileFunc
import OneJit.LabelsResolve
import OneJit.Lib.FlatCode
import OneJit.Lowered
import OneJit.Lib.Structured
import OneJit.Machine
import OneJit.Jumps
import OneJit.Lowering
import OneJit.Go.Redeclared
import OneJit.Go.Resolver
import OneJit.Lib.Precedence
import OneJit.Go.DeclareGlobals
import OneJit.Mir.Compiler
import OneJit.Lib.Worlds
import OneJit.Mir.Assembler
import OneJit.Mir.KnownVars
import OneJit.Mir.Declared
import OneJit.Go.Reader
import OneJit.Go.ScanM
import OneJit.Go.Scanner
import OneJit.Go.Delivery
import OneJit.Go.ScanFuel
import OneJit.OptimizerKinds
import OneJit.Hazards
import OneJit.OptimizerHazards
import OneJit.AssignHazards
import OneJit.Elements
import OneJit.ConstEncoding
import OneJit.EvalConst
import OneJit.Folding
import OneJit.Go.Types
import OneJit.Go.TypesCanonical
import OneJit.DeepEqualSound
import OneJit.Lib.ThreeWay
import OneJit.NodeCompare
import OneJit.Go.Ast
import OneJit.Go.ParserM
import OneJit.Go.ParserTypes
import OneJit.Go.ParserExprs
import OneJit.Go.ParserStmts
import OneJit.Go.Parser
import OneJit.Go.ExprTokens
import OneJit.Lib.Triple
import OneJit.Go.ExprRoundTrip
import OneJit.Lib.Ledger
import OneJit.CallKind
import OneJit.Mir.AddressSum
import OneJit.Mir.CallAssign
import OneJit.Lib.X86
import OneJit.X64.Asm1
import OneJit.X64.MemEncoding
import OneJit.X64.ImmEncoding
import OneJit.X64.Address
import OneJit.X64.AddressSum
import OneJit.Mir.Execution
import OneJit.Mir.Operands
import OneJit.Mir.CastLowering
import OneJit.Reallocation
import OneJit.Stl.BitSet
import OneJit.Stl.BitSetFind
import OneJit.Stl.BitSetFill
import OneJit.Stl.Graph
import OneJit.Stl.GraphRuns
import OneJit.Creation
import OneJit.Go.Escape
import OneJit.Go.Quote
import OneJit.Go.Clean
import OneJit.Go.Uniform
import OneJit.Go.Character
import OneJit.Go.CleanSteps
import OneJit.Go.ScanString
import OneJit.Go.StringLiterals
import OneJit.Go.Sort
import OneJit.Go.Constant
import OneJit.Go.Conversion
import OneJit.Go.ConstantOp
import OneJit.Go.ConstantSpec
import OneJit.Go.Named
import OneJit.Go.Interface
import OneJit.Go.MethodSets
import OneJit.Go.Located
import OneJit.Go.Positions
import OneJit.Go.FileSet
import OneJit.Go.StrongDeps
import OneJit.Go.Settled
import OneJit.Go.Mirror
import OneJit.Go.SortCalls
import OneJit.GoJit.Arg
import OneJit.GoJit.Optimize
import OneJit.GoJit.SoftRegs
import OneJit.Lib.Arm64
import OneJit.GoJit.MovConst
import OneJit.GoJit.Comp
import OneJit.GoJit.TempRegs
import OneJit.GoJit.CompEval
import OneJit.GoJit.Forwarding
import OneJit.GoJit.ParallelAssign
import OneJit.GoJit.Amd64
import OneJit.GoJit.Amd64Encode
import OneJit.GoJit.Amd64Exec
import OneJit.GoJit.SaveArea
import OneJit.Stl.Array
import OneJit.Stl.ScanFmt
import OneJit.GoJit.Amd64Op2
import OneJit.GoJit.Amd64Shift
import OneJit.GoJit.Amd64ShiftVar
import OneJit.GoJit.Amd64Op3
import OneJit.Stl.FindFirstSet
import OneJit.Described
import OneJit.Emitted
import OneJit.Branch
import OneJit.ShortCircuit
import OneJit.LoweredOperands
import OneJit.LoweredCalls
import OneJit.LoweringSound
import OneJit.JumpIf
import OneJit.Statements
import OneJit.ExprSimulation
import OneJit.StmtSteps
import OneJit.StmtSimulation
import OneJit.FuncSimulation
import OneJit.FlowGraphRuns
import OneJit.OptimizerKept
import OneJit.Lib.Defined
import OneJit.OptimizerRuns
import OneJit.OptimizerStmts
import OneJit.OptimizedFunc
