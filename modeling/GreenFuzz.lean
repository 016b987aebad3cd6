import GreenFuzz.AflFuzz.AliasRounding
import GreenFuzz.AflFuzz.AliasSelection
import GreenFuzz.AflFuzz.AsciiWritten
import GreenFuzz.AflFuzz.BuiltinTokens
import GreenFuzz.AflFuzz.CacheVictims
import GreenFuzz.AflFuzz.CustomTrim
import GreenFuzz.AflFuzz.DetDedup
import GreenFuzz.AflFuzz.DetFilters
import GreenFuzz.AflFuzz.DictionaryOrder
import GreenFuzz.AflFuzz.DryRunVisits
import GreenFuzz.AflFuzz.DuplicateClasses
import GreenFuzz.AflFuzz.Energy
import GreenFuzz.AflFuzz.EnergyMonotone
import GreenFuzz.AflFuzz.EngineExit
import GreenFuzz.AflFuzz.ExtrasLengths
import GreenFuzz.AflFuzz.HavocAgreement
import GreenFuzz.AflFuzz.MainElection
import GreenFuzz.AflFuzz.QueuedVariable
import GreenFuzz.AflFuzz.RandomSource
import GreenFuzz.AflFuzz.ResumeCover
import GreenFuzz.AflFuzz.ResumeOrder
import GreenFuzz.AflFuzz.SkipInference
import GreenFuzz.AflFuzz.SplicePoint
import GreenFuzz.AflFuzz.SyncRestart
import GreenFuzz.AflFuzz.TrimStatistics
import GreenFuzz.AflFuzz.VariableEdges
import GreenFuzz.AflFuzz.WriteToTestcase
import GreenFuzz.Cmin.CollectFiles
import GreenFuzz.Cmin.EnergyFirst
import GreenFuzz.Cmin.OutputFiles
import GreenFuzz.Cmin.Showmap
import GreenFuzz.Common.ExtractEnv
import GreenFuzz.Common.Suggestions
import GreenFuzz.CompilerRt.GuardIds
import GreenFuzz.CompilerRt.LocateInPcs
import GreenFuzz.CompilerRt.RoutineLog
import GreenFuzz.ForkServer.HandshakeAgreement
import GreenFuzz.ForkServer.RunAgreement
import GreenFuzz.Instrumentation.CompareTransformValues
import GreenFuzz.Instrumentation.PcGuardBlocks
import GreenFuzz.Instrumentation.SplitFloatsMeaning
import GreenFuzz.Instrumentation.SplitSwitchesMeaning
import GreenFuzz.Redqueen.CombineStep
import GreenFuzz.Redqueen.InputToState
import GreenFuzz.Redqueen.OperandOrder
import GreenFuzz.Redqueen.ScaleEncoding
import GreenFuzz.Tmin.MinimizeContract
