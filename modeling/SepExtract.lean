import SepExtract.TransitionRuns
import SepExtract.TracerKernel
import SepExtract.TracerFreshness
import SepExtract.UsnlSession
import SepExtract.StopSticky
import SepExtract.UsnlDelivery
import SepExtract.UsnlWakeups
import SepExtract.GoText
import SepExtract.WrappingCounter
import SepExtract.AnalyseTrace
import SepExtract.AnalyseState
import SepExtract.AnalyseRun
import SepExtract.DelayScripts
import SepExtract.CycleUnwrapping
import SepExtract.Nesting
import SepExtract.AnalyseHeap
import SepExtract.TraceExecution
import SepExtract.AnalysePeu
import SepExtract.ServicePicture
import SepExtract.ServiceReconstruction
import SepExtract.CpuLocality
import SepExtract.InterleavingIndependence
import SepExtract.CreateSignatures
import SepExtract.SignatureReading
import SepExtract.InstanceShapes
import SepExtract.TextFields
import SepExtract.SignatureTexts
import SepExtract.SignatureAlignment
import SepExtract.SignatureCompleteness
import SepExtract.TimeAttribution
import SepExtract.SemaphoreEvents
import SepExtract.TracerSlots
import SepExtract.PacketQueue
import SepExtract.QueueEvents
import SepExtract.ChannelPipeline
import SepExtract.NumberTexts
import SepExtract.SymbolResolution
import SepExtract.UsnlTraceText
import SepExtract.TracePipeline
import SepExtract.QueueConditions
import SepExtract.IntraOsPairing
import SepExtract.EventPrograms
import SepExtract.PacketPathBrackets
import SepExtract.ThreadBrackets
import SepExtract.EodSimulation
import SepExtract.EodSeparation
import SepExtract.HandlerMoves
import SepExtract.PacketIdentities
import SepExtract.MigrationStacks
import SepExtract.MigrationDelays
import SepExtract.TemporaryVariables
import SepExtract.PeuMatching
import SepExtract.AnyNesting
import SepExtract.PacketLabels
import SepExtract.PacketExtracts
import SepExtract.TruncatedLines
import SepExtract.TruncatedTraces
import SepExtract.LoopRounds
import SepExtract.LoopIterations
import SepExtract.LinkedLists
import SepExtract.QueueEviction
import SepExtract.ReceiveChains
import SepExtract.ReceiveBuffers
import SepExtract.GlomChains
import SepExtract.IoctlExchange
import SepExtract.PacketRecognition
import SepExtract.LoopControl
import SepExtract.BacklogLoops
import SepExtract.BacklogScheduling
import SepExtract.TaskletQueues
import SepExtract.SoftirqDelivery
import SepExtract.ProbeTables
import SepExtract.DynamicProbes
import SepExtract.SampleCounting
import SepExtract.RendezvousPipeline
import SepExtract.StatsPipeline
import SepExtract.SignatureGroups
import SepExtract.CreditWindow
import SepExtract.TransmitCredits
