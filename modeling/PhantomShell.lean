import PhantomShell.Lib.Splice
import PhantomShell.Lib.JumpCode
import PhantomShell.Lib.Chunks
import PhantomShell.Lib.Lexemes
import PhantomShell.EmitterTheorems
import PhantomShell.HashmapGrowth
import PhantomShell.Vm.TableGrowth
import PhantomShell.Vm.CallStack
import PhantomShell.Vm.Assertions
import PhantomShell.Vm.Outcomes
import PhantomShell.RawEmission
import PhantomShell.EmitterLifecycle
import PhantomShell.Session
import PhantomShell.Parser.GroupingTheorems
import PhantomShell.Parser.Nodes
import PhantomShell.Parser.BlankLineTheorems
import PhantomShell.Parser.LiteralTheorems
import PhantomShell.Parser.CommentTheorems
import PhantomShell.Parser.LexerTheorems
import PhantomShell.Parser.LexemeTheorems
import PhantomShell.Parser.PrintTheorems
import PhantomShell.Compiler.CodegenTheorems
import PhantomShell.Compiler.EncodingTheorems
import PhantomShell.Compiler.SemanticsTheorems
import PhantomShell.Compiler.SessionTheorems
import PhantomShell.Compiler.DispatchTheorems
import PhantomShell.Compiler.CallDepthTheorems
import PhantomShell.Compiler.ModesTheorems
import PhantomShell.Compiler.DepthTheorems
import PhantomShell.Compiler.StackTheorems
import PhantomShell.Compiler.TypesTheorems
import PhantomShell.Compiler.InterningTheorems
import PhantomShell.Compiler.SignatureTheorems
import PhantomShell.Compiler.ExpressionTheorems
import PhantomShell.Compiler.OversizeTheorems
import PhantomShell.Compiler.CallTheorems
import PhantomShell.Compiler.SlotTheorems
import PhantomShell.Compiler.CallSiteTheorems
import PhantomShell.Compiler.StorageTheorems
import PhantomShell.Parser.SwitchTheorems
import PhantomShell.Parser.Runs
import PhantomShell.Parser.NestingTheorems
import PhantomShell.Parser.ChainTheorems
import PhantomShell.Parser.Layout
import PhantomShell.Parser.Trees
import PhantomShell.Parser.WellFormed
import PhantomShell.Parser.Free
import PhantomShell.Parser.FreeTheorems
import PhantomShell.Parser.Unambiguous
import PhantomShell.Parser.Resolution
import PhantomShell.HashTheorems
