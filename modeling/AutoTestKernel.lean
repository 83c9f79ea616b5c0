import AutoTestKernel.CheckKernel.Handover
import AutoTestKernel.CheckKernel.InSteps
import AutoTestKernel.CheckKernel.Marker
import AutoTestKernel.CheckKernel.Rerun
import AutoTestKernel.CheckKernel.Script
import AutoTestKernel.CheckKernel.WayBack
import AutoTestKernel.GetKmalloc
import AutoTestKernel.GuestProgram.Tested
import AutoTestKernel.Library.FileTree
import AutoTestKernel.Library.Runs
import AutoTestKernel.Library.StreamEditor
import AutoTestKernel.Library.WorkQueue
import AutoTestKernel.S2eHeader
import AutoTestKernel.StartTest.Builds
import AutoTestKernel.StartTest.Completion
import AutoTestKernel.StartTest.Config
import AutoTestKernel.StartTest.Interference
import AutoTestKernel.StartTest.Launches
import AutoTestKernel.StartTest.Orphans
import AutoTestKernel.StartTest.Paths
import AutoTestKernel.StartTest.Recovery
import AutoTestKernel.StartTest.Refinement
import AutoTestKernel.StartTest.Rewrites
import AutoTestKernel.StartTest.Waiting
