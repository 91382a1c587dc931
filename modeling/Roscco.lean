import Roscco.Library.Machine
import Roscco.Library.Component
import Roscco.Library.Fifo
import Roscco.Library.Ring
import Roscco.Library.Double
import Roscco.Library.TimedLog
import Roscco.Library.BitLayout
import Roscco.Library.Averaging
import Roscco.Library.Saturation
import Roscco.Library.Logged
import Roscco.Library.ReleaseAcquire
import Roscco.Library.Transport
import Roscco.SignalQueue.Basic
import Roscco.SignalQueue.Refinement
import Roscco.SignalQueue.Slots
import Roscco.SignalQueue.Words
import Roscco.SignalQueue.MemoryOrders
import Roscco.Rclcpp
import Roscco.Teleop.Basic
import Roscco.Teleop.Steps
import Roscco.Teleop.Discipline
import Roscco.Teleop.Rearming
import Roscco.Teleop.Smoothing
import Roscco.Teleop.Authority
import Roscco.Teleop.LastCommands
import Roscco.Teleop.Supervisor
import Roscco.Teleop.TorqueMemory
import Roscco.Teleop.Timing
import Roscco.RosToOscc.Basic
import Roscco.RosToOscc.Limits
import Roscco.CommandLink.Basic
import Roscco.CommandLink.Delivery
import Roscco.CommandLink.Origin
import Roscco.CommandLink.Actuation
import Roscco.ObdFeedback.SignalSpec
import Roscco.ObdFeedback.Basic
import Roscco.ObdFeedback.Motorola
import Roscco.ObdFeedback.Fit
import Roscco.ObdFeedback.Decoding
import Roscco.ObdFeedback.Operations
import Roscco.ObdFeedback.Streams
import Roscco.ObdFeedback.Admission
import Roscco.ObdFeedback.Payloads
import Roscco.ObdFeedback.Unsigned
import Roscco.OsccToRos.Reports
import Roscco.OsccToRos.Basic
import Roscco.OsccToRos.Conservation
import Roscco.OsccToRos.Slack
import Roscco.OsccToRos.Feedback
import Roscco.OsccToRos.Draining
import Roscco.OsccToRos.PlainDrain
import Roscco.OsccToRos.DropWarnings
import Roscco.OsccToRos.DropTotals
import Roscco.RosccoNode.Basic
import Roscco.RosccoNode.Lifecycle
import Roscco.RosccoNode.Progress
import Roscco.RosccoNode.Components
import Roscco.PidControl.Basic
import Roscco.PidControl.Runs
import Roscco.PidControl.Forgetting
import Roscco.Apollo.Basic
import Roscco.Apollo.ClosedLoop
import Roscco.Apollo.Measurements
import Roscco.Apollo.SteeringAngle
