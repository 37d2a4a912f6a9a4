import HaresBears.HappensBefore
import HaresBears.GroupFormation
import HaresBears.Runtime
import HaresBears.GroupAdmission
import HaresBears.AdmissionBasics
import HaresBears.AdmissionReplies
import HaresBears.AdmissionOrder
import HaresBears.AdmissionSafety
import HaresBears.PartyBuilding
import HaresBears.Handlers
import HaresBears.Coherence
import HaresBears.ClockRules
import HaresBears.Refinement
import HaresBears.DeliveryOrder
import HaresBears.PartySafety
import HaresBears.ClockCondition
import HaresBears.ReplyConservation
import HaresBears.PartyValidity
import HaresBears.HeadOfLine
import HaresBears.ProcessState
import HaresBears.LocalSource
import HaresBears.GroupChoice
import HaresBears.MpiTransport
import HaresBears.PartyIdClash
import HaresBears.QueueIterators
import HaresBears.Quiescence
import HaresBears.Traffic
import HaresBears.MainLoop
import HaresBears.TwoProcesses
import HaresBears.ClockGrowth
import HaresBears.Continuations
import HaresBears.CalmRuns
import HaresBears.Deadlock
import HaresBears.Overtaking
import HaresBears.Service
import HaresBears.PartyTime
import HaresBears.BlockingSends
