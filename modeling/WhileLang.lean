import WhileLang.Value
import WhileLang.Syntax
import WhileLang.Syntax.Printer
import WhileLang.Text.Lines
import WhileLang.Text.Decimal
import WhileLang.Token
import WhileLang.Token.Scan
import WhileLang.ParseError
import WhileLang.ParseState
import WhileLang.Parser
import WhileLang.Parser.Rule
import WhileLang.Grammar
import WhileLang.Ty
import WhileLang.SemanticError
import WhileLang.Syntax.Lookup
import WhileLang.Running.Frame
import WhileLang.Running.CallStack
import WhileLang.Running.Evaluation
import WhileLang.Running.Execution
import WhileLang.Ty.Subst
import WhileLang.Ty.Unification
import WhileLang.Term
import WhileLang.Term.OfProgram
import WhileLang.Term.TypeEnv
import WhileLang.TypeReport
import WhileLang.Term.Inference
import WhileLang.Error
import WhileLang.Source
import WhileLang.FileTree
import WhileLang.CommandLine
import WhileLang.Main
import WhileLang.Proofs.Ty.Merging
import WhileLang.Proofs.Ty.MostGeneral
import WhileLang.Proofs.Ty.Instances
import WhileLang.Proofs.Ty.Locality
import WhileLang.Proofs.Ty.Cycles
import WhileLang.Proofs.Ty.Worklist
import WhileLang.Proofs.Ty.PrintedForms
import WhileLang.Proofs.Running.FrameDiscipline
import WhileLang.Proofs.Running.Assignments
import WhileLang.Proofs.Running.Histories
import WhileLang.Proofs.Running.Noninterference
import WhileLang.Proofs.Running.Origins
import WhileLang.Proofs.Running.CallSites
import WhileLang.Proofs.Running.Limits
import WhileLang.Proofs.Syntax.Nesting
import WhileLang.Proofs.Syntax.Calls
import WhileLang.Proofs.Running.Nesting
import WhileLang.Proofs.Running.Scripts
import WhileLang.Proofs.Running.Termination
import WhileLang.Proofs.Typing.Evaluation
import WhileLang.Proofs.Syntax.Names
import WhileLang.Proofs.Term.BindingOrder
import WhileLang.Proofs.Term.Definitions
import WhileLang.Proofs.Term.DefinitionWalks
import WhileLang.Proofs.Term.PrintedForms
import WhileLang.Proofs.Term.Resolution
import WhileLang.Proofs.Term.CalleesFirst
import WhileLang.Proofs.Term.FreshVariables
import WhileLang.Proofs.Term.Exactness
import WhileLang.Proofs.Term.Leaves
import WhileLang.Proofs.Term.Parts
import WhileLang.Proofs.Term.Rows
import WhileLang.Proofs.Term.OwnVariables
import WhileLang.Proofs.Term.Freshness
import WhileLang.Proofs.Term.PrincipalTypes
import WhileLang.Proofs.Term.PrincipalTypings
import WhileLang.Proofs.Typing.Soundness
import WhileLang.Proofs.Typing.InferredTypes
import WhileLang.Proofs.Typing.ProgramWalks
import WhileLang.Proofs.Typing.SpotSolutions
import WhileLang.Proofs.Typing.Arity
import WhileLang.Proofs.Typing.FunctionOrder
import WhileLang.Proofs.Typing.Nesting
import WhileLang.Proofs.Parser.Exactness
import WhileLang.Proofs.Parser.Failures
import WhileLang.Proofs.Parser.Traces
import WhileLang.Proofs.Parser.Viability
import WhileLang.Proofs.Parser.Accounts
import WhileLang.Proofs.Parser.Retracing
import WhileLang.Proofs.Parser.RetracedProductions
import WhileLang.Proofs.Parser.Memoization
import WhileLang.Proofs.Parser.RuleStarts
import WhileLang.Proofs.Parser.Diagnosis
import WhileLang.Proofs.Parser.Conditions
import WhileLang.Proofs.Parser.Alternatives
import WhileLang.Proofs.Syntax.RoundTrip
import WhileLang.Proofs.Token.Lossless
import WhileLang.Proofs.Token.Rescanning
import WhileLang.Proofs.Typing.Reports
import WhileLang.Proofs.Typing.Signatures
import WhileLang.Proofs.Typing.Deduplication
